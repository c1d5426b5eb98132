/-
  Pools after any requests.

  A request puts an entry with all that it refers to. It can fail on the way; what was put then stays in the pool.
-/
import ClassDoc.Proofs.Pool.Invariant
namespace ClassDoc

open List

/-! ## Requests -/

/-- What can be put into a pool. -/
inductive PoolRequest where
  | text (t : JavaText)
  | utf8 (s : String)
  | optionalUtf8 (s : Option String)
  | classRef (name : String)
  | optionalClass (name : Option String)
  | module (name : String)
  | package (name : String)
  | nameAndType (name descriptor : String)
  | fieldRef (owner name descriptor : String)
  | methodRef (owner name descriptor : String) (interface : Bool)
  | methodHandle (handle : Handle)
  | integer (v : Int32)
  | long (v : Int64)
  | float (v : Single)
  | double (v : Double)
  | constant (c : Constant)
  | invokeDynamic (name descriptor : String) (bootstrap : Handle) (arguments : List Constant)

def PoolRequest.run : PoolRequest → PoolM UInt16
  | text t => Pool.text t
  | utf8 s => Pool.utf8 s
  | optionalUtf8 s => Pool.optionalUtf8 s
  | classRef name => Pool.classRef name
  | optionalClass name => Pool.optionalClass name
  | module name => Pool.module name
  | package name => Pool.package name
  | nameAndType name descriptor => Pool.nameAndType name descriptor
  | fieldRef owner name descriptor => Pool.fieldRef owner name descriptor
  | methodRef owner name descriptor interface => Pool.methodRef owner name descriptor interface
  | methodHandle h => Pool.methodHandle h
  | integer v => Pool.put (.integer v)
  | long v => Pool.put (.long v)
  | float v => Pool.put (.float v)
  | double v => Pool.put (.double v)
  | constant c => Pool.constant c
  | invokeDynamic name descriptor bootstrap arguments => Pool.invokeDynamic name descriptor bootstrap arguments

def Pool.after {α : Type} (x : PoolM α) (p : Pool) : Pool :=
  match x p with
  | .ok _ q | .error _ q => q

def Pool.ofRequests (requests : List PoolRequest) : Pool := requests.foldl (fun p r => Pool.after r.run p) {}

def Handle.texts (h : Handle) : List JavaText := [.ofString h.owner, .ofString h.name, .ofString h.descriptor]

mutual

def Constant.texts : Constant → List JavaText
  | integer _ | float _ | long _ | double _ => []
  | string v => [v]
  | classRef name => [.ofString name]
  | methodType descriptor => [.ofString descriptor]
  | methodHandle h => h.texts
  | dynamic name descriptor bootstrap arguments =>
    .ofString name :: .ofString descriptor :: (bootstrap.texts ++ Constant.textsAll arguments)

def Constant.textsAll : List Constant → List JavaText
  | [] => []
  | c :: rest => c.texts ++ Constant.textsAll rest

end

mutual

/-- The numbers of arguments of all bootstrap methods in a constant. -/
def Constant.argumentCounts : Constant → List Nat
  | dynamic _ _ _ arguments => arguments.length :: Constant.argumentCountsAll arguments
  | integer _ | float _ | long _ | double _ | string _ | classRef _ | methodType _ | methodHandle _ => []

def Constant.argumentCountsAll : List Constant → List Nat
  | [] => []
  | c :: rest => c.argumentCounts ++ Constant.argumentCountsAll rest

end

namespace PoolRequest

def texts : PoolRequest → List JavaText
  | text t => [t]
  | utf8 s | classRef s | module s | package s => [.ofString s]
  | optionalUtf8 s | optionalClass s => s.toList.map .ofString
  | nameAndType name descriptor => [.ofString name, .ofString descriptor]
  | fieldRef owner name descriptor | methodRef owner name descriptor _ =>
    [.ofString owner, .ofString name, .ofString descriptor]
  | methodHandle h => h.texts
  | integer _ | long _ | float _ | double _ => []
  | constant c => c.texts
  | invokeDynamic name descriptor bootstrap arguments =>
    .ofString name :: .ofString descriptor :: (bootstrap.texts ++ Constant.textsAll arguments)

def argumentCounts : PoolRequest → List Nat
  | constant c => c.argumentCounts
  | invokeDynamic _ _ _ arguments => arguments.length :: Constant.argumentCountsAll arguments
  | _ => []

end PoolRequest

/-! ## References -/

/-- What entries an index can refer to. -/
inductive EntryKind where
  | text
  | classRef
  | nameAndType
  | field
  | method
  | handle
  | loadable

def EntryKind.holds : EntryKind → PoolEntry → Bool
  | text, .utf8 _ => true
  | classRef, .classRef _ => true
  | nameAndType, .nameAndType _ _ => true
  | field, .fieldRef _ _ => true
  | method, .methodRef _ _ | method, .interfaceMethodRef _ _ => true
  | handle, .methodHandle _ _ => true
  | loadable, .integer _ | loadable, .float _ | loadable, .long _ | loadable, .double _ | loadable, .classRef _
  | loadable, .string _ | loadable, .methodHandle _ _ | loadable, .methodType _ | loadable, .dynamic _ _ => true
  | _, _ => false

/-- An entry of a kind, or a bootstrap method, by its index. -/
inductive Reference where
  | entry (kind : EntryKind) (index : UInt16)
  | method (index : UInt16)

def PoolEntry.references : PoolEntry → List Reference
  | classRef n | string n | methodType n | module n | package n => [.entry .text n]
  | nameAndType n d => [.entry .text n, .entry .text d]
  | fieldRef o m | methodRef o m | interfaceMethodRef o m => [.entry .classRef o, .entry .nameAndType m]
  | methodHandle kind r => [.entry (if Handle.isFieldKind kind then .field else .method) r]
  | dynamic b m | invokeDynamic b m => [.method b, .entry .nameAndType m]
  | integer _ | float _ | long _ | double _ | utf8 _ => []

def BootstrapMethod.references (m : BootstrapMethod) : List Reference :=
  .entry .handle m.handle :: m.arguments.map (.entry .loadable)

namespace Pool

/-- The pool has what the index refers to. -/
def Finds (p : Pool) : Reference → Prop
  | .entry kind i => ∃ e, p.slots[i.toNat]? = some (some e) ∧ kind.holds e = true
  | .method i => i.toNat < p.methods.length

theorem Finds.mono {p q : Pool} (h : p ≤ q) {r : Reference} (hr : p.Finds r) : q.Finds r := by
  cases r with
  | entry kind i =>
    obtain ⟨e, he, hk⟩ := hr
    exact ⟨e, getElem?_of_isPrefix h.1 he, hk⟩
  | method i =>
    have hl := h.2.length_le
    rw [length_reverse, length_reverse] at hl
    exact Nat.lt_of_lt_of_le hr hl

/-- Entries and bootstrap methods were added one at a time. Each was new, there was room for it, and what it refers to
was there before. -/
inductive Grown : Pool → Prop where
  | empty : Grown {}
  | add {p : Pool} {e : PoolEntry} (h : Grown p) (hn : p.indices[e]? = none) (hc : p.count + e.slots < 0x10000)
      (hr : ∀ r ∈ e.references, p.Finds r) : Grown (p.add e)
  | addMethod {p : Pool} {m : BootstrapMethod} (h : Grown p) (hn : p.methodIndices[m]? = none)
      (hc : p.methodCount < 0x10000) (hr : ∀ r ∈ m.references, p.Finds r) : Grown (p.addMethod m)

variable {p q : Pool}

theorem Grown.tables (h : p.Grown) : p.Tables := by
  induction h with
  | empty => exact tables_empty
  | add _ hn hc _ ih => exact ih.add hn hc
  | addMethod _ hn hc _ ih => exact ih.addMethod hn hc

/-! ## Entries, indices and bootstrap methods -/

theorem length_slots (p : Pool) : p.slots.length = 1 + (p.entries.map PoolEntry.slots).sum := by
  have hl : (List.length ∘ PoolEntry.places) = PoolEntry.slots := funext PoolEntry.length_places
  rw [slots, length_cons, length_flatMap, map_reverse, sum_reverse, Nat.add_comm, ← hl]
  rfl

theorem PoolEntry.getElem?_places {e e' : PoolEntry} {i : Nat} : e.places[i]? = some (some e') ↔ i = 0 ∧ e = e' := by
  unfold PoolEntry.places
  cases i with
  | zero => simp
  | succ i =>
    rw [getElem?_cons_succ]
    split
    · cases i <;> simp
    · simp

theorem getElem?_slots_add {e d : PoolEntry} {i : Nat} : (p.add e).slots[i]? = some (some d) ↔
    p.slots[i]? = some (some d) ∨ i = p.slots.length ∧ e = d := by
  rw [slots_add]
  rcases Nat.lt_or_ge i p.slots.length with hi | hi
  · rw [getElem?_append_left hi]
    simp [Nat.ne_of_lt hi]
  · rw [getElem?_append_right hi, PoolEntry.getElem?_places, getElem?_eq_none hi]
    simp only [reduceCtorEq, false_or]
    exact and_congr_left fun _ => by omega

theorem getElem?_slots_iff {e : PoolEntry} {i : Nat} : p.slots[i]? = some (some e) ↔
    ∃ later earlier, p.entries = later ++ e :: earlier ∧ i = 1 + (earlier.map PoolEntry.slots).sum := by
  have hlist : ∀ es : List PoolEntry, ({ entries := es } : Pool).slots[i]? = some (some e) ↔
      ∃ later earlier, es = later ++ e :: earlier ∧ i = 1 + (earlier.map PoolEntry.slots).sum := by
    intro es
    induction es with
    | nil => cases i <;> simp [slots]
    | cons e' es ih =>
      have hadd := getElem?_slots_add (p := { entries := es }) (e := e') (d := e) (i := i)
      rw [ih, length_slots] at hadd
      refine hadd.trans ⟨?_, ?_⟩
      · rintro (⟨later, earlier, rfl, hi⟩ | ⟨hi, rfl⟩)
        · exact ⟨e' :: later, earlier, rfl, hi⟩
        · exact ⟨[], es, rfl, hi⟩
      · rintro ⟨later, earlier, he, hi⟩
        cases later with
        | nil =>
          cases he
          exact .inr ⟨hi, rfl⟩
        | cons _ later =>
          cases he
          exact .inl ⟨later, earlier, rfl, hi⟩
  exact hlist p.entries

theorem mem_entries_of_put {e : PoolEntry} {i : UInt16} (hp : p.Tables) (h : put e p = .ok i q) :
    e ∈ q.entries ∧ p.entries ⊆ q.entries ∧ q.methods = p.methods := by
  rcases put_eq_ok_iff.1 h with ⟨hi, rfl⟩ | ⟨-, -, rfl, rfl⟩
  · obtain ⟨later, earlier, he, -⟩ := getElem?_slots_iff.1 ((hp.index e i).1 hi)
    exact ⟨by simp [he], List.Subset.refl _, rfl⟩
  · exact ⟨by simp [Pool.add], by simp [Pool.add], rfl⟩

/-- The entries, their indices and the bootstrap methods of a pool agree: each entry has the first of its indices, and
all indices inside entries and bootstrap methods refer to what is there. -/
structure Consistent (p : Pool) : Prop where
  count : p.count = 1 + (p.entries.map PoolEntry.slots).sum
  index : ∀ (e : PoolEntry) (i : UInt16), p.indices[e]? = some i ↔
    ∃ later earlier, p.entries = later ++ e :: earlier ∧ i.toNat = 1 + (earlier.map PoolEntry.slots).sum
  /-- Different entries have different indices. -/
  index_inj : ∀ (e e' : PoolEntry) (i : UInt16), p.indices[e]? = some i → p.indices[e']? = some i → e = e'
  /-- The second index of a wide entry is that of no entry. -/
  second : ∀ (e e' : PoolEntry) (i j : UInt16), p.indices[e]? = some i → e.isWide = true → p.indices[e']? = some j →
    j.toNat ≠ i.toNat + 1
  method : ∀ (m : BootstrapMethod) (i : UInt16), p.methodIndices[m]? = some i ↔ p.methods.reverse[i.toNat]? = some m
  /-- What an entry refers to is there, and was put before it. -/
  references : ∀ (e : PoolEntry) (i : UInt16), p.indices[e]? = some i → ∀ r ∈ e.references,
    p.Finds r ∧ ∀ kind j, r = .entry kind j → j < i
  methodReferences : ∀ m ∈ p.methods, ∀ r ∈ m.references, p.Finds r

theorem Grown.references (h : p.Grown) : ∀ (i : Nat) e, p.slots[i]? = some (some e) → ∀ r ∈ e.references,
    p.Finds r ∧ ∀ kind j, r = .entry kind j → j.toNat < i := by
  induction h with
  | empty =>
    intro i e he
    rw [slots] at he
    cases i <;> simp at he
  | @add p e h hn hc hr ih =>
    intro i e' he r hmem
    have hle := le_add p e
    rcases getElem?_slots_add.1 he with he | ⟨rfl, rfl⟩
    · exact (ih i e' he r hmem).imp_left (·.mono hle)
    · refine ⟨(hr r hmem).mono hle, ?_⟩
      rintro kind j rfl
      obtain ⟨e'', he'', -⟩ := hr _ hmem
      exact (List.getElem?_eq_some_iff.1 he'').1
  | @addMethod p m h hn hc hr ih =>
    intro i e he r hmem
    exact (ih i e he r hmem).imp_left (·.mono (le_addMethod p m))

theorem Grown.second (h : p.Grown) : ∀ (i : Nat) e, p.slots[i]? = some (some e) → e.isWide = true →
    p.slots[i + 1]? = some none := by
  induction h with
  | empty =>
    intro i e he
    rw [slots] at he
    cases i <;> simp at he
  | @add p e h hn hc hr ih =>
    intro i e' he hw
    rcases getElem?_slots_add.1 he with he | ⟨rfl, rfl⟩
    · exact getElem?_of_isPrefix (le_add p e).1 (ih i e' he hw)
    · rw [slots_add, getElem?_append_right (Nat.le_add_right _ 1), Nat.add_sub_cancel_left, PoolEntry.places, if_pos hw]
      rfl
  | addMethod h hn hc hr ih => exact ih

theorem Grown.methodReferences (h : p.Grown) : ∀ m ∈ p.methods, ∀ r ∈ m.references, p.Finds r := by
  induction h with
  | empty => simp
  | @add p e h hn hc hr ih => exact fun m hm r hmem => (ih m hm r hmem).mono (le_add p e)
  | @addMethod p m h hn hc hr ih =>
    intro m' hm' r hmem
    have hle := le_addMethod p m
    rcases mem_cons.1 hm' with rfl | hm'
    · exact (hr r hmem).mono hle
    · exact (ih m' hm' r hmem).mono hle

/-- **A pool that grew by one entry or bootstrap method at a time is consistent.** -/
theorem Grown.consistent (h : p.Grown) : p.Consistent := by
  have ht := h.tables
  refine ⟨by rw [ht.count, length_slots], fun e i => ?_, fun e e' i he he' => ?_, fun e e' i j he hw he' => ?_,
    fun m i => ?_,
    fun e i he r hr => ?_, h.methodReferences⟩
  · rw [ht.index, getElem?_slots_iff]
  · rw [ht.index] at he he'
    rw [he] at he'
    cases he'
    rfl
  · rw [ht.index] at he he'
    intro hj
    rw [hj, h.second _ _ he hw] at he'
    cases he'
  · rw [ht.methodIndex, getElem?_map]
    simp
  · exact h.references i.toNat e ((ht.index e i).1 he) r hr

/-- Every bootstrap method is referred to. -/
def Used (p : Pool) : Prop :=
  ∀ i : UInt16, i.toNat < p.methods.length → ∃ e ∈ p.entries, Reference.method i ∈ e.references

/-- All entries satisfy `E` and all bootstrap methods `M`. -/
structure Holds (E : PoolEntry → Prop) (M : BootstrapMethod → Prop) (p : Pool) : Prop where
  grown : p.Grown
  entries : ∀ e ∈ p.entries, E e
  methods : ∀ m ∈ p.methods, M m

end Pool

/-! ## What computations put -/

section
variable {α β : Type} (E : PoolEntry → Prop) (M : BootstrapMethod → Prop)

/-- What a request does to a pool. -/
structure AddStep (p q : Pool) (found : List Reference) : Prop where
  holds : q.Holds E M
  le : p ≤ q
  found : ∀ r ∈ found, q.Finds r
  used : p.Used → q.Used

/-- A computation that relies on some references adds only entries and bootstrap methods of some sort, which refer to what
is there before, also where it fails. If it succeeds, then more references can be relied on. -/
structure Adds (known : List Reference) (x : PoolM α) (found : α → List Reference) : Prop where
  ok : ∀ {p a q}, p.Holds E M → (∀ r ∈ known, p.Finds r) → x p = .ok a q → AddStep E M p q (found a)
  error : ∀ {p f q}, p.Holds E M → (∀ r ∈ known, p.Finds r) → x p = .error f q → q.Holds E M

end

namespace Adds

variable {α β : Type} {E : PoolEntry → Prop} {M : BootstrapMethod → Prop} {known : List Reference}
  {found : α → List Reference} {found' : β → List Reference} {x : PoolM α} {f : α → PoolM β}

theorem pure {a : α} (h : found a ⊆ known) : Adds E M known (Pure.pure a) found where
  ok hp hk hx := by
    cases hx
    exact ⟨hp, le_rfl, fun r hr => hk r (h hr), id⟩
  error _ _ hx := by cases hx

theorem mono {found' : α → List Reference} (h : Adds E M known x found)
    (hf : ∀ a, found' a ⊆ found a) : Adds E M known x found' where
  ok hp hk hx :=
    have s := h.ok hp hk hx
    { s with found := fun r hr => s.found r (hf _ hr) }
  error := h.error

theorem bind_exists (hx : Adds E M known x found)
    (hf : ∀ a, (∃ p q, x p = .ok a q) → Adds E M (found a ++ known) (f a) found') : Adds E M known (x >>= f) found' where
  ok {p b q} hp hk h := by
    obtain ⟨a, r, ha, hb⟩ := run_bind_eq_ok.1 h
    have s := hx.ok hp hk ha
    have t := (hf a ⟨p, r, ha⟩).ok s.holds (forall_mem_append.2 ⟨s.found, fun r hr => (hk r hr).mono s.le⟩) hb
    exact ⟨t.holds, s.le.trans t.le, t.found, t.used ∘ s.used⟩
  error {p e q} hp hk h := by
    rcases run_bind_eq_error.1 h with h | ⟨a, r, ha, hb⟩
    · exact hx.error hp hk h
    · have s := hx.ok hp hk ha
      exact (hf a ⟨p, r, ha⟩).error s.holds (forall_mem_append.2 ⟨s.found, fun r hr => (hk r hr).mono s.le⟩) hb

theorem bind (hx : Adds E M known x found) (hf : ∀ a, Adds E M (found a ++ known) (f a) found') :
    Adds E M known (x >>= f) found' :=
  hx.bind_exists fun a _ => hf a

theorem put {e : PoolEntry} (kinds : List EntryKind) (hkinds : ∀ kind ∈ kinds, kind.holds e = true) (he : E e)
    (hr : e.references ⊆ known) : Adds E M known (Pool.put e) fun i => kinds.map (.entry · i) where
  ok {p i q} hp hk h := by
    have ht := hp.grown.tables
    rcases Pool.put_eq_ok_iff.1 h with ⟨hi, rfl⟩ | ⟨hn, hc, rfl, rfl⟩
    · refine ⟨hp, le_rfl, forall_mem_map.2 fun kind hkind => ?_, id⟩
      exact ⟨e, (ht.index e i).1 hi, hkinds kind hkind⟩
    · refine ⟨⟨hp.grown.add hn hc fun r hmem => hk r (hr hmem), ?_, hp.methods⟩, Pool.le_add p e,
        forall_mem_map.2 fun kind hkind => ?_, fun hu i hi => ?_⟩
      · exact forall_mem_cons.2 ⟨he, hp.entries⟩
      · exact ⟨e, ht.getElem?_add e, hkinds kind hkind⟩
      · obtain ⟨e', he', hmem⟩ := hu i hi
        exact ⟨e', mem_cons_of_mem e he', hmem⟩
  error {p f q} hp hk h := by
    obtain ⟨-, -, -, rfl⟩ := Pool.put_eq_error_iff.1 h
    exact hp

theorem putMethod {m : BootstrapMethod} (hm : M m) (hmr : m.references ⊆ known) {entry : UInt16 → PoolEntry}
    (kinds : List EntryKind) (hkinds : ∀ b, ∀ kind ∈ kinds, kind.holds (entry b) = true) (he : ∀ b, E (entry b))
    (hr : ∀ b, (entry b).references ⊆ .method b :: known) (hb : ∀ b, Reference.method b ∈ (entry b).references) :
    Adds E M known (Pool.putMethod m >>= fun b => Pool.put (entry b)) fun i => kinds.map (.entry · i) := by
  -- the pool with the bootstrap method, in which its index can be relied on
  have hstep : ∀ {p b r}, p.Holds E M → (∀ r ∈ known, p.Finds r) → Pool.putMethod m p = .ok b r →
      r.Holds E M ∧ p ≤ r ∧ (∀ x ∈ .method b :: known, r.Finds x) ∧ r.entries = p.entries ∧
        ∀ i : UInt16, i.toNat < r.methods.length → i.toNat < p.methods.length ∨ i = b := by
    intro p b r hp hk h
    have ht := hp.grown.tables
    rcases Pool.putMethod_eq_ok_iff.1 h with ⟨hi, rfl⟩ | ⟨hn, hc, rfl, rfl⟩
    · have hlt := (List.getElem?_eq_some_iff.1 (ht.method_of_index hi)).1
      rw [List.length_reverse] at hlt
      exact ⟨hp, le_rfl, List.forall_mem_cons.2 ⟨hlt, hk⟩, rfl, fun i hi => .inl hi⟩
    · have hle := Pool.le_addMethod p m
      have hb : (UInt16.ofNat p.methodCount).toNat = p.methods.length := by
        rw [UInt16.toNat_ofNat_of_lt' hc, ht.methodCount]
      have hl : (p.addMethod m).methods.length = p.methods.length + 1 := rfl
      refine ⟨⟨hp.grown.addMethod hn hc fun x hx => hk x (hmr hx), hp.entries, forall_mem_cons.2 ⟨hm, hp.methods⟩⟩, hle,
        forall_mem_cons.2 ⟨?_, fun x hx => (hk x hx).mono hle⟩, rfl, fun i hi => ?_⟩
      · show (UInt16.ofNat p.methodCount).toNat < (p.addMethod m).methods.length
        omega
      · rcases Nat.lt_or_ge i.toNat p.methods.length with hlt | hge
        · exact .inl hlt
        · exact .inr (UInt16.toNat_inj.1 (by omega))
  constructor
  · intro p i q hp hk h
    obtain ⟨b, r, hmethod, hput⟩ := run_bind_eq_ok.1 h
    obtain ⟨hr', hle, hk', hentries, hi⟩ := hstep hp hk hmethod
    have s := (put kinds (hkinds b) (he b) (hr b)).ok hr' hk' hput
    obtain ⟨hmem, hsub, hmethods⟩ := Pool.mem_entries_of_put hr'.grown.tables hput
    refine { s with le := hle.trans s.le, used := fun hu i hlt => ?_ }
    rw [hmethods] at hlt
    rcases hi i hlt with hlt | rfl
    · obtain ⟨e, he, hx⟩ := hu i hlt
      exact ⟨e, hsub (hentries ▸ he), hx⟩
    · exact ⟨_, hmem, hb i⟩
  · intro p f q hp hk h
    rcases run_bind_eq_error.1 h with h | ⟨b, r, hmethod, hput⟩
    · rw [Pool.putMethod_eq_error h]
      exact hp
    · obtain ⟨hr', -, hk', -, -⟩ := hstep hp hk hmethod
      exact (put kinds (hkinds b) (he b) (hr b)).error hr' hk' hput

section
variable {t : JavaText} {s name descriptor owner : String}

theorem text (ht : E (.utf8 t)) : Adds E M known (Pool.text t) fun i => [.entry .text i] :=
  put [.text] (by simp [EntryKind.holds]) ht (by simp [PoolEntry.references])

theorem utf8 (hs : E (.utf8 (.ofString s))) : Adds E M known (Pool.utf8 s) fun i => [.entry .text i] := text hs

variable (hE : ∀ e, (∀ t, e ≠ .utf8 t) → E e)
include hE

/-- An entry that is no text, and what it refers to is known. -/
theorem putEntry (kinds : List EntryKind) {e : PoolEntry}
    (hk : ∀ kind ∈ kinds, kind.holds e = true := by simp [EntryKind.holds]) (ht : ∀ t, e ≠ .utf8 t := by simp)
    (hr : e.references ⊆ known := by simp [PoolEntry.references]) :
    Adds E M known (Pool.put e) fun i => kinds.map (.entry · i) := put kinds hk (hE e ht) hr

theorem classRef (hn : E (.utf8 (.ofString name))) :
    Adds E M known (Pool.classRef name) fun i => [.entry .classRef i, .entry .loadable i] :=
  (utf8 hn).bind fun n => putEntry hE [.classRef, .loadable]

theorem nameAndType (hn : E (.utf8 (.ofString name))) (hd : E (.utf8 (.ofString descriptor))) :
    Adds E M known (Pool.nameAndType name descriptor) fun i => [.entry .nameAndType i] :=
  (utf8 hn).bind fun n => (utf8 hd).bind fun d => putEntry hE [.nameAndType]

theorem fieldRef (ho : E (.utf8 (.ofString owner))) (hn : E (.utf8 (.ofString name)))
    (hd : E (.utf8 (.ofString descriptor))) :
    Adds E M known (Pool.fieldRef owner name descriptor) fun i => [.entry .field i] :=
  (classRef hE ho).bind fun o => (nameAndType hE hn hd).bind fun m => putEntry hE [.field]

theorem methodRef (interface : Bool) (ho : E (.utf8 (.ofString owner))) (hn : E (.utf8 (.ofString name)))
    (hd : E (.utf8 (.ofString descriptor))) :
    Adds E M known (Pool.methodRef owner name descriptor interface) fun i => [.entry .method i] := by
  refine (classRef hE ho).bind fun o => (nameAndType hE hn hd).bind fun m => ?_
  cases interface <;>
    exact putEntry hE [.method]

theorem methodHandle (h : Handle) (ht : ∀ t ∈ h.texts, E (.utf8 t)) :
    Adds E M known (Pool.methodHandle h) fun i => [.entry .handle i, .entry .loadable i] := by
  simp only [Handle.texts, forall_mem_cons] at ht
  obtain ⟨ho, hn, hd, -⟩ := ht
  have step : ∀ {x : PoolM UInt16} {kind : EntryKind}, kind = (if Handle.isFieldKind h.kind then .field else .method) →
      Adds E M known x (fun r => [.entry kind r]) →
      Adds E M known (x >>= fun r => Pool.put (.methodHandle h.kind r)) fun i => [.entry .handle i, .entry .loadable i] := by
    rintro x _ rfl hx
    exact hx.bind fun r => putEntry hE [.handle, .loadable]
  unfold Pool.methodHandle
  split
  next hf => exact step (by rw [if_pos hf]) (fieldRef hE ho hn hd)
  next hf => exact step (by rw [if_neg hf]) (methodRef hE h.interface ho hn hd)

end

theorem length_constants {cs : List Constant} {is : List UInt16} {p q : Pool} (h : Pool.constants cs p = .ok is q) :
    is.length = cs.length := by
  induction cs generalizing is p with
  | nil =>
    cases h
    rfl
  | cons c cs ih =>
    obtain ⟨i, r, -, h⟩ := run_bind_eq_ok.1 h
    obtain ⟨is', r', his, h⟩ := run_bind_eq_ok.1 h
    cases h
    rw [length_cons, length_cons, ih his]

mutual

theorem constant (hE : ∀ e, (∀ t, e ≠ .utf8 t) → E e) (known : List Reference) : (c : Constant) →
    (∀ t ∈ c.texts, E (.utf8 t)) →
    (∀ m : BootstrapMethod, m.arguments.length ∈ c.argumentCounts → M m) →
    Adds E M known (Pool.constant c) fun i => [.entry .loadable i]
  | .integer v, _, _ | .float v, _, _ | .long v, _, _ | .double v, _, _ =>
    putEntry hE [.loadable]
  | .string v, ht, _ => (text (ht v (by simp [Constant.texts]))).bind fun n =>
    putEntry hE [.loadable]
  | .classRef name, ht, _ => (classRef hE (ht _ (by simp [Constant.texts]))).mono (by simp)
  | .methodType descriptor, ht, _ => (utf8 (ht _ (by simp [Constant.texts]))).bind fun n =>
    putEntry hE [.loadable]
  | .methodHandle h, ht, _ => (methodHandle hE h ht).mono (by simp)
  | .dynamic name descriptor bootstrap arguments, ht, hm => by
    simp only [Constant.texts, forall_mem_cons, forall_mem_append] at ht
    obtain ⟨hn, hd, hb, ha⟩ := ht
    rw [Pool.constant]
    refine (nameAndType hE hn hd).bind fun n => (methodHandle hE bootstrap hb).bind fun handle => ?_
    refine (constants hE _ arguments ha fun m h => hm m (by simp [Constant.argumentCounts, h])).bind_exists fun is his => ?_
    obtain ⟨p, q, his⟩ := his
    refine putMethod (hm _ (by simp [Constant.argumentCounts, length_constants his])) ?_ [.loadable]
      (by simp [EntryKind.holds]) (fun b => hE _ (by simp)) (by simp [PoolEntry.references]) (by simp [PoolEntry.references])
    simp [BootstrapMethod.references]

theorem constants (hE : ∀ e, (∀ t, e ≠ .utf8 t) → E e) (known : List Reference) : (cs : List Constant) →
    (∀ t ∈ Constant.textsAll cs, E (.utf8 t)) →
    (∀ m : BootstrapMethod, m.arguments.length ∈ Constant.argumentCountsAll cs → M m) →
    Adds E M known (Pool.constants cs) fun is => is.map (.entry .loadable)
  | [], _, _ => pure (by simp)
  | c :: cs, ht, hm => by
    rw [Constant.textsAll, forall_mem_append] at ht
    rw [Pool.constants]
    refine (constant hE known c ht.1 fun m h => hm m (by simp [Constant.argumentCountsAll, h])).bind fun i => ?_
    refine (constants hE _ cs ht.2 fun m h => hm m (by simp [Constant.argumentCountsAll, h])).bind fun is => ?_
    exact pure (by simp)

end

/-- **A request adds only what refers to entries and bootstrap methods that were there before.** -/
theorem request (hE : ∀ e, (∀ t, e ≠ .utf8 t) → E e) (r : PoolRequest) (ht : ∀ t ∈ r.texts, E (.utf8 t))
    (hm : ∀ m : BootstrapMethod, m.arguments.length ∈ r.argumentCounts → M m) :
    Adds E M known r.run fun _ => [] := by
  have hnil : ∀ {found : UInt16 → List Reference} (i : UInt16), [] ⊆ found i := fun i => nil_subset _
  cases r with
  | text t => exact (text (ht t (by simp [PoolRequest.texts]))).mono hnil
  | utf8 s => exact (utf8 (ht _ (by simp [PoolRequest.texts]))).mono hnil
  | optionalUtf8 s =>
    cases s with
    | none => exact pure (nil_subset _)
    | some s => exact (utf8 (ht _ (by simp [PoolRequest.texts]))).mono hnil
  | classRef name => exact (classRef hE (ht _ (by simp [PoolRequest.texts]))).mono hnil
  | optionalClass name =>
    cases name with
    | none => exact pure (nil_subset _)
    | some name => exact (classRef hE (ht _ (by simp [PoolRequest.texts]))).mono hnil
  | module name | package name =>
    exact (utf8 (ht _ (by simp [PoolRequest.texts]))).bind fun n =>
      putEntry hE []
  | nameAndType name descriptor =>
    simp only [PoolRequest.texts, forall_mem_cons] at ht
    exact (nameAndType hE ht.1 ht.2.1).mono hnil
  | fieldRef owner name descriptor =>
    simp only [PoolRequest.texts, forall_mem_cons] at ht
    exact (fieldRef hE ht.1 ht.2.1 ht.2.2.1).mono hnil
  | methodRef owner name descriptor interface =>
    simp only [PoolRequest.texts, forall_mem_cons] at ht
    exact (methodRef hE interface ht.1 ht.2.1 ht.2.2.1).mono hnil
  | methodHandle h => exact (methodHandle hE h ht).mono hnil
  | integer v | long v | float v | double v =>
    exact putEntry hE []
  | constant c => exact (constant hE known c ht hm).mono hnil
  | invokeDynamic name descriptor bootstrap arguments =>
    simp only [PoolRequest.texts, forall_mem_cons, forall_mem_append] at ht
    obtain ⟨hn, hd, hb, ha⟩ := ht
    refine (nameAndType hE hn hd).bind fun n => (methodHandle hE bootstrap hb).bind fun handle => ?_
    refine (constants hE _ arguments ha fun m h =>
      hm m (by simp [PoolRequest.argumentCounts, h])).bind_exists fun is his => ?_
    obtain ⟨p, q, his⟩ := his
    refine putMethod (hm _ (by simp [PoolRequest.argumentCounts, length_constants his])) ?_ [] (by simp)
      (fun b => hE _ (by simp)) (by simp [PoolEntry.references]) (by simp [PoolEntry.references])
    simp [BootstrapMethod.references]

end Adds

namespace Pool

theorem grown_ofRequests (requests : List PoolRequest) : (ofRequests requests).Grown := by
  refine List.foldlRecOn requests _ (motive := Pool.Grown) .empty fun p hp r _ => ?_
  have hadds : Adds (fun _ => True) (fun _ => True) [] r.run fun _ => [] :=
    Adds.request (fun _ _ => trivial) r (fun _ _ => trivial) (fun _ _ => trivial)
  have hholds : p.Holds (fun _ => True) (fun _ => True) := ⟨hp, fun _ _ => trivial, fun _ _ => trivial⟩
  rw [after]
  cases h : r.run p with
  | ok i q => exact (hadds.ok hholds (by simp) h).holds.grown
  | error f q => exact (hadds.error hholds (by simp) h).grown

/-- **After any requests, also failed ones, a pool is consistent.** Its entries and bootstrap methods were added one after
the other, each referring only to earlier ones, and an entry for which there is no room leaves the pool as it is. -/
theorem consistent_requests (requests : List PoolRequest) : (ofRequests requests).Consistent ∧
    (ofRequests requests).Grown ∧ ∀ e f q, put e (ofRequests requests) = .error f q →
      q = ofRequests requests ∧ 0xFFFF < (ofRequests requests).count + e.slots := by
  have h := grown_ofRequests requests
  refine ⟨h.consistent, h, fun e f q hput => ?_⟩
  obtain ⟨-, hc, -, rfl⟩ := put_eq_error_iff.1 hput
  exact ⟨rfl, by omega⟩

end Pool

end ClassDoc
