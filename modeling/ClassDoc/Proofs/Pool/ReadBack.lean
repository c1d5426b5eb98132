/-
  Requests to a pool are read back.
-/
import ClassDoc.Proofs.ClassFile.Bootstrap
import ClassDoc.Proofs.Pool.Constant
import ClassDoc.Proofs.Pool.Requests
namespace ClassDoc

open List

/-! ## Requests that can be read back -/

/-- The reference kind exists, and only the owner of a method is said to be an interface. -/
def Handle.Readable (h : Handle) : Prop := Handle.isKind h.kind = true ∧ h.isPlain = true

mutual

/-- How many bootstrap methods are nested in a constant. -/
def Constant.depth : Constant → Nat
  | dynamic _ _ _ arguments => Constant.depthAll arguments + 1
  | integer _ | float _ | long _ | double _ | string _ | classRef _ | methodType _ | methodHandle _ => 0

def Constant.depthAll : List Constant → Nat
  | [] => 0
  | c :: rest => max c.depth (Constant.depthAll rest)

end

mutual

theorem Constant.loads_of_readable (level : Nat) : (c : Constant) → (∀ h ∈ c.handles, h.Readable) → c.depth ≤ level →
    c.loads level = true
  | .integer _, _, _ | .float _, _, _ | .long _, _, _ | .double _, _, _ | .string _, _, _ | .classRef _, _, _
  | .methodType _, _, _ => by simp [Constant.loads]
  | .methodHandle h, hh, _ => by
    rw [Constant.loads]
    exact (hh h (by simp [Constant.handles])).1
  | .dynamic name descriptor bootstrap arguments, hh, hd => by
    rw [Constant.handles, forall_mem_cons] at hh
    rw [Constant.depth] at hd
    cases level with
    | zero => omega
    | succ level =>
      rw [Constant.loads, Bool.and_eq_true]
      exact ⟨hh.1.1, Constant.allLoad_of_readable level arguments hh.2 (by omega)⟩

theorem Constant.allLoad_of_readable (level : Nat) : (cs : List Constant) → (∀ h ∈ Constant.handlesAll cs, h.Readable) →
    Constant.depthAll cs ≤ level → Constant.allLoad level cs = true
  | [], _, _ => by simp [Constant.allLoad]
  | c :: rest, hh, hd => by
    rw [Constant.handlesAll, forall_mem_append] at hh
    rw [Constant.depthAll] at hd
    rw [Constant.allLoad, Bool.and_eq_true]
    exact ⟨Constant.loads_of_readable level c hh.1 (by omega), Constant.allLoad_of_readable level rest hh.2 (by omega)⟩

end

namespace PoolRequest

def handles : PoolRequest → List Handle
  | methodHandle h => [h]
  | constant c => c.handles
  | invokeDynamic _ _ bootstrap arguments => bootstrap :: Constant.handlesAll arguments
  | _ => []

def depth : PoolRequest → Nat
  | constant c => c.depth
  | invokeDynamic _ _ _ arguments => Constant.depthAll arguments + 1
  | _ => 0

/-- What is requested can be written and read back. -/
structure Readable (r : PoolRequest) : Prop where
  texts : ∀ t ∈ r.texts, t.encode.length ≤ 0xFFFF
  handles : ∀ h ∈ r.handles, h.Readable
  depth : r.depth ≤ PoolView.maxDepth + 1

/-- What was requested stands at an index. -/
def Found (V : PoolView) : PoolRequest → UInt16 → Prop
  | text t, i => V.text i = .ok t
  | utf8 s, i => V.utf8 i = .ok s
  | optionalUtf8 s, i => PoolView.optional V.utf8 i = .ok s
  | classRef name, i => V.classRef i = .ok name
  | optionalClass name, i => PoolView.optional V.classRef i = .ok name
  | module name, i => V.module i = .ok name
  | package name, i => V.package i = .ok name
  | nameAndType name descriptor, i => V.nameAndType i = .ok (name, descriptor)
  | fieldRef owner name descriptor, i => V.memberRef i = .ok ⟨owner, name, descriptor, false⟩
  | methodRef owner name descriptor interface, i => V.memberRef i = .ok ⟨owner, name, descriptor, interface⟩
  | methodHandle h, i => V.methodHandle i = .ok h
  | integer v, i => V.integer i = .ok v
  | long v, i => V.long i = .ok v
  | float v, i => V.float i = .ok v
  | double v, i => V.double i = .ok v
  | constant c, i => V.constant i = .ok c
  | invokeDynamic name descriptor bootstrap arguments, i =>
    V.invokeDynamic i = .ok (name, descriptor, bootstrap, arguments)

end PoolRequest

theorem puts_request {r : PoolRequest} (hr : r.Readable) : Puts true r.run fun V i => r.Found V i := by
  have hh := hr.handles
  have hd := hr.depth
  cases r with
  | text t => exact puts_text t
  | utf8 s => exact puts_utf8 s
  | optionalUtf8 s => exact puts_optionalUtf8 s
  | classRef name => exact puts_classRef name
  | optionalClass name => exact puts_optionalClass name
  | module name => exact puts_module name
  | package name => exact puts_package name
  | nameAndType name descriptor => exact puts_nameAndType name descriptor
  | fieldRef owner name descriptor => exact puts_fieldRef owner name descriptor
  | methodRef owner name descriptor interface => exact puts_methodRef owner name descriptor interface
  | methodHandle h =>
    have hh := hh h (by simp [PoolRequest.handles])
    exact (puts_methodHandle h hh.1).mono fun V i hi => Handle.normal_of_isPlain hh.2 ▸ hi
  | integer v => exact (puts_put _).mono fun V i he => by rw [PoolRequest.Found, PoolView.integer, he, ok_bind]
  | long v => exact (puts_put _).mono fun V i he => by rw [PoolRequest.Found, PoolView.long, he, ok_bind]
  | float v => exact (puts_put _).mono fun V i he => by rw [PoolRequest.Found, PoolView.float, he, ok_bind]
  | double v => exact (puts_put _).mono fun V i he => by rw [PoolRequest.Found, PoolView.double, he, ok_bind]
  | constant c =>
    have hn := Constant.normal_of_isPlain c fun h hm => (hh h hm).2
    exact (puts_constant c (Constant.loads_of_readable _ c hh hd)).mono fun V i hi => hi.trans (congrArg _ hn)
  | invokeDynamic name descriptor bootstrap arguments =>
    rw [PoolRequest.handles, forall_mem_cons] at hh
    have hl := Constant.allLoad_of_readable PoolView.maxDepth arguments hh.2 (Nat.le_of_succ_le_succ hd)
    refine (puts_invokeDynamic name descriptor bootstrap arguments hh.1.1 hl).mono fun V i hi => ?_
    rw [PoolRequest.Found, hi, Handle.normal_of_isPlain hh.1.2,
      Constant.normalAll_of_isPlain arguments fun h hm => (hh.2 h hm).2]

/-! ## The bytes of a pool -/

theorem exists_count2 {n : Nat} (h : n ≤ 0xFFFF) : ∃ bytes, Bytes.count2 n = .ok bytes := by
  rw [Bytes.count2, if_pos (by omega)]
  exact ⟨_, rfl⟩

theorem exists_mapM_eq_ok {α β : Type} {f : α → Except Fault β} {xs : List α} (h : ∀ x ∈ xs, ∃ y, f x = .ok y) :
    ∃ ys, xs.mapM f = .ok ys := by
  obtain ⟨ys, hys⟩ := forall₂_exists h
  exact ⟨ys, mapM_eq_ok_iff.2 hys⟩

variable {M : BootstrapMethod → Prop} {E : PoolEntry → Prop} {e : PoolEntry}

theorem PoolEntry.exists_encode (h : ∀ t, e = .utf8 t → t.encode.length ≤ 0xFFFF) : ∃ bytes, e.encode = .ok bytes := by
  cases e with
  | utf8 t =>
    obtain ⟨count, hc⟩ := exists_count2 (h t rfl)
    exact ⟨_, bind_eq_ok.2 ⟨_, bind_eq_ok.2 ⟨count, within_eq_ok.2 hc, rfl⟩, rfl⟩⟩
  | _ => exact ⟨_, rfl⟩

theorem BootstrapMethod.exists_encode {m : BootstrapMethod} (h : m.arguments.length ≤ 0xFFFF) :
    ∃ bytes, m.encode = .ok bytes := by
  obtain ⟨count, hc⟩ := exists_count2 h
  exact ⟨_, bind_eq_ok.2 ⟨count, hc, rfl⟩⟩

def PoolEntry.bootstrap? : PoolEntry → Option UInt16
  | .dynamic b _ | .invokeDynamic b _ => some b
  | _ => none

theorem PoolEntry.bootstrap?_of_mem {i : UInt16} (h : Reference.method i ∈ e.references) : e.bootstrap? = some i := by
  cases e <;> simp_all [PoolEntry.references, PoolEntry.bootstrap?]

namespace Pool

variable {p : Pool}

theorem exists_encode (h : ∀ e ∈ p.entries, ∃ bytes, e.encode = .ok bytes) : ∃ bytes, p.encode = .ok bytes := by
  obtain ⟨parts, hparts⟩ := exists_mapM_eq_ok fun e he => h e (mem_reverse.1 he)
  exact ⟨_, bind_eq_ok.2 ⟨parts, hparts, rfl⟩⟩

theorem Grown.length_entries_lt (h : p.Grown) : p.entries.length < 0xFFFF := by
  have hs : p.entries.length ≤ (p.entries.map PoolEntry.slots).sum := by
    have hone : ∀ n ∈ p.entries.map PoolEntry.slots, 1 ≤ n := by
      intro n hn
      obtain ⟨e, -, rfl⟩ := mem_map.1 hn
      rw [PoolEntry.slots]
      split <;> omega
    have := length_le_sum_of_one_le _ hone
    rwa [length_map] at this
  have hc := h.consistent.count
  have hb := h.tables.bound
  omega

theorem Grown.length_methods_le (h : p.Grown) : p.methods.length ≤ 0x10000 := by
  induction h with
  | empty => decide
  | add _ _ _ _ ih => exact ih
  | @addMethod p m h hn hc hr ih =>
    have hl : (p.addMethod m).methods.length = p.methods.length + 1 := rfl
    have := h.tables.methodCount
    omega

theorem Used.length_methods_le (hu : p.Used) (h : p.Grown) : p.methods.length ≤ p.entries.length := by
  have hmethods := h.length_methods_le
  have hnodup : ((List.range p.methods.length).map UInt16.ofNat).Nodup := by
    refine nodup_range.map_on fun i hi j hj hij => ?_
    rw [mem_range] at hi hj
    have hij := congrArg UInt16.toNat hij
    rwa [UInt16.toNat_ofNat_of_lt' (hi.trans_le hmethods), UInt16.toNat_ofNat_of_lt' (hj.trans_le hmethods)] at hij
  have hsub : (List.range p.methods.length).map UInt16.ofNat ⊆ p.entries.filterMap PoolEntry.bootstrap? := by
    intro i hi
    obtain ⟨n, hn, rfl⟩ := mem_map.1 hi
    rw [mem_range] at hn
    obtain ⟨e, he, hr⟩ := hu (UInt16.ofNat n) (by rwa [UInt16.toNat_ofNat_of_lt' (hn.trans_le hmethods)])
    exact mem_filterMap.2 ⟨e, he, PoolEntry.bootstrap?_of_mem hr⟩
  have hle := (hnodup.subperm hsub).length_le
  rw [length_map, length_range] at hle
  exact hle.trans (length_filterMap_le _ _)

theorem exists_encodeMethods (hp : p.Grown) (hu : p.Used) (h : ∀ m ∈ p.methods, ∃ bytes, m.encode = .ok bytes) :
    ∃ bytes, p.encodeMethods = .ok bytes := by
  have hcount : p.methodCount ≤ 0xFFFF := by
    have := hp.tables.methodCount
    have := hu.length_methods_le hp
    have := hp.length_entries_lt
    omega
  obtain ⟨count, hc⟩ := exists_count2 hcount
  obtain ⟨parts, hparts⟩ := exists_mapM_eq_ok fun m hm => h m (mem_reverse.1 hm)
  exact ⟨_, bind_eq_ok.2 ⟨count, hc, bind_eq_ok.2 ⟨parts, hparts, rfl⟩⟩⟩

end Pool

/-! ## The result -/

theorem Adds.mapM {α : Type} {f : α → PoolM UInt16} {xs : List α}
    (h : ∀ a ∈ xs, ∀ known, Adds E M known (f a) fun _ => []) (known : List Reference) :
    Adds E M known (xs.mapM f) fun _ => [] := by
  induction xs with
  | nil => exact pure (nil_subset _)
  | cons a xs ih =>
    rw [mapM_cons]
    refine (h a (by simp) known).bind fun i => ?_
    refine (ih fun a' ha' => h a' (by simp [ha'])).bind fun is => pure (nil_subset _)

theorem Pool.addStep_requests {requests : List PoolRequest}
    {indices : List UInt16} {p : Pool} (h : requests.mapM PoolRequest.run {} = .ok indices p)
    (hE : ∀ e, (∀ t, e ≠ .utf8 t) → E e) (ht : ∀ r ∈ requests, ∀ t ∈ r.texts, E (.utf8 t))
    (hM : ∀ r ∈ requests, ∀ m : BootstrapMethod, m.arguments.length ∈ r.argumentCounts → M m) :
    p.Holds E M ∧ p.Used := by
  have hadds := Adds.mapM fun r hr known => Adds.request hE r (ht r hr) (hM r hr)
  have s := (hadds []).ok ⟨.empty, by simp, by simp⟩ (by simp) h
  exact ⟨s.holds, s.used fun i hi => absurd hi (Nat.not_lt_zero _)⟩

/-- **All that was requested from an empty pool is read back.** The pool can be written, its bytes are read to their end, and
in what is read from them and from the table of bootstrap methods each index stands for what was requested, whatever was
requested before or after. The table can be written too if no bootstrap method has too many arguments. -/
theorem Pool.found_requests {requests : List PoolRequest} {indices : List UInt16} {p : Pool}
    (hr : ∀ r ∈ requests, r.Readable) (h : requests.mapM PoolRequest.run {} = .ok indices p) :
    ∃ entries, p.encode = .ok entries ∧ (∃ V, Decodes PoolView.decode entries V) ∧
      ((∀ r ∈ requests, ∀ n ∈ r.argumentCounts, n ≤ 0xFFFF) → ∃ table, p.encodeMethods = .ok table) ∧
      ∀ table, p.encodeMethods = .ok table →
        ∃ V : PoolView, V.IsRead entries table ∧ Forall₂ (fun r i => r.Found V i) requests indices := by
  have s := Puts.mapM (fun r hmem => puts_request (hr r hmem)) wf_empty h
  have hother : ∀ e, (∀ t, e ≠ PoolEntry.utf8 t) → ∃ bytes, e.encode = .ok bytes :=
    fun e he => PoolEntry.exists_encode fun t ht => absurd ht (he t)
  have htexts : ∀ r ∈ requests, ∀ t ∈ r.texts, ∃ bytes, (PoolEntry.utf8 t).encode = .ok bytes := by
    intro r hmem t ht
    refine PoolEntry.exists_encode fun t' ht' => ?_
    cases ht'
    exact (hr r hmem).texts t ht
  obtain ⟨hall, -⟩ := addStep_requests (M := fun _ => True) h hother htexts fun _ _ _ _ => trivial
  obtain ⟨entries, hentries⟩ := exists_encode hall.entries
  refine ⟨entries, hentries, ⟨_, PoolView.decodes_encode s.wf.tables hentries⟩, fun hcounts => ?_, fun table htable => ?_⟩
  · obtain ⟨hall, hused⟩ := addStep_requests (M := fun m => ∃ bytes, m.encode = .ok bytes) h hother htexts
      fun r hmem m hm => BootstrapMethod.exists_encode (hcounts r hmem _ hm)
    exact exists_encodeMethods hall.grown hused hall.methods
  · obtain ⟨V, hV, hcovers⟩ := s.wf.exists_isRead hentries htable
    exact ⟨V, hV, s.seen p V s.wf le_rfl hcovers⟩

namespace Dynamic

/-- A static method that makes a constant. -/
def handle : Handle := ⟨6, "A", "m", "()I", false⟩

/-- A wide entry that is requested again as the argument of a dynamic constant. -/
def requests : List PoolRequest := [.long 7, .constant (.dynamic "x" "I" handle [.long 7])]

theorem readable_requests : ∀ r ∈ requests, r.Readable := by
  intro r hr
  simp only [requests, mem_cons, not_mem_nil, or_false] at hr
  rcases hr with rfl | rfl
  · exact ⟨by simp [PoolRequest.texts], by simp [PoolRequest.handles], Nat.zero_le _⟩
  · refine ⟨by decide, ?_, by decide⟩
    simp only [PoolRequest.handles, Constant.handles, Constant.handlesAll, append_nil, mem_singleton, forall_eq]
    exact ⟨rfl, by decide⟩

theorem exists_run : ∃ indices p, requests.mapM PoolRequest.run {} = .ok indices p := by
  obtain ⟨indices, p, h, -⟩ := exists_of_succeeds (r := requests.mapM PoolRequest.run {}) (p := fun _ _ => true) (by cbv)
  exact ⟨indices, p, h⟩

end Dynamic

theorem Pool.found_requests_dynamic : ∃ indices p entries table V, Dynamic.requests.mapM PoolRequest.run {} = .ok indices p ∧
    p.encode = .ok entries ∧ p.encodeMethods = .ok table ∧ PoolView.IsRead V entries table ∧
    Forall₂ (fun r i => r.Found V i) Dynamic.requests indices := by
  obtain ⟨indices, p, h⟩ := Dynamic.exists_run
  obtain ⟨entries, hentries, -, htable, hread⟩ := Pool.found_requests Dynamic.readable_requests h
  obtain ⟨table, htable⟩ := htable (by decide)
  obtain ⟨V, hV, hfound⟩ := hread table htable
  exact ⟨indices, p, entries, table, V, h, hentries, htable, hV, hfound⟩

end ClassDoc
