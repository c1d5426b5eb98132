/-
  The pool of a class that is written, as a list of entries by index.
-/
import ClassDoc.Proofs.Binary.Decode
import ClassDoc.Pool.Encode
namespace ClassDoc

open List

/-! ## Tables -/

/-- The table gives the slot of each key. -/
def Indexes {κ : Type} [BEq κ] [Hashable κ] (table : Std.HashMap κ UInt16) (slots : List (Option κ)) : Prop :=
  ∀ (k : κ) (i : UInt16), table[k]? = some i ↔ slots[i.toNat]? = some (some k)

section
variable {κ : Type} [BEq κ] [LawfulBEq κ] [Hashable κ] {table : Std.HashMap κ UInt16} {slots : List (Option κ)}

theorem Indexes.empty (slots : List (Option κ)) (hs : ∀ o ∈ slots, o = none) :
    Indexes (∅ : Std.HashMap κ UInt16) slots := by
  intro k i
  constructor
  · simp
  · intro h
    exact nomatch hs _ (mem_of_getElem? h)

theorem Indexes.insert (h : Indexes table slots) {k : κ} (hk : table[k]? = none) (hl : slots.length < 0x10000)
    {t : List (Option κ)} (ht : ∀ o ∈ t, o = none) :
    Indexes (table.insert k (UInt16.ofNat slots.length)) (slots ++ some k :: t) := by
  have hn : (UInt16.ofNat slots.length).toNat = slots.length := UInt16.toNat_ofNat_of_lt' hl
  have hnew : ∀ k' (i : UInt16), slots.length ≤ i.toNat →
      ((slots ++ some k :: t)[i.toNat]? = some (some k') ↔ k = k' ∧ i = UInt16.ofNat slots.length) := by
    intro k' i hi
    rw [getElem?_append_right hi]
    rcases Nat.eq_zero_or_pos (i.toNat - slots.length) with h0 | h0
    · have hi' : i = UInt16.ofNat slots.length := UInt16.toNat_inj.1 (by omega)
      rw [h0, getElem?_cons_zero]
      simp [hi']
    · have hi' : i ≠ UInt16.ofNat slots.length := fun e => by rw [e] at h0; omega
      obtain ⟨j, hj⟩ := Nat.exists_eq_succ_of_ne_zero (Nat.pos_iff_ne_zero.1 h0)
      rw [hj, Nat.succ_eq_add_one, getElem?_cons_succ]
      refine ⟨fun e => ?_, fun e => absurd e.2 hi'⟩
      exact nomatch ht _ (mem_of_getElem? e)
  intro k' i
  rw [Std.HashMap.getElem?_insert]
  rcases Nat.lt_or_ge i.toNat slots.length with hi | hi
  · rw [getElem?_append_left hi, ← h k' i]
    split
    next e =>
      obtain rfl := eq_of_beq e
      rw [hk]
      refine ⟨fun e => ?_, fun e => nomatch e⟩
      rw [← Option.some.inj e, hn] at hi
      exact absurd hi (lt_irrefl _)
    next => rfl
  · rw [hnew k' i hi]
    split
    next e => simp [eq_of_beq e, eq_comm]
    next e =>
      rw [h k' i, getElem?_eq_none hi]
      simp only [beq_iff_eq] at e
      simp [e]

end

/-! ## Pools -/

def PoolEntry.places (e : PoolEntry) : List (Option PoolEntry) :=
  some e :: if e.isWide then [none] else []

theorem PoolEntry.length_places (e : PoolEntry) : e.places.length = e.slots := by
  unfold places slots
  split <;> rfl

/-- The entries by index. There is none at zero and behind wide entries. -/
def Pool.slots (p : Pool) : List (Option PoolEntry) := none :: p.entries.reverse.flatMap PoolEntry.places

/-- A view has the entries of a pool. If `full`, it also has its bootstrap methods. -/
structure PoolView.Covers (V : PoolView) (full : Bool) (p : Pool) : Prop where
  entry : ∀ (i : Nat) e, p.slots[i]? = some (some e) → V.entries[i]? = some (some e)
  method : full = true → ∀ (i : Nat) m, p.methods.reverse[i]? = some m →
    ∃ h, V.methods[i]? = some (h, m.arguments) ∧ V.methodHandle m.handle = .ok h

namespace Pool

/-- The pool `q` has what `p` has, at the same indices. -/
instance : Preorder Pool where
  le p q := p.slots <+: q.slots ∧ p.methods.reverse <+: q.methods.reverse
  le_refl p := ⟨prefix_rfl, prefix_rfl⟩
  le_trans _ _ _ h h' := ⟨h.1.trans h'.1, h.2.trans h'.2⟩

/-- The tables of a pool agree with its entries and bootstrap methods. -/
structure Tables (p : Pool) : Prop where
  count : p.count = p.slots.length
  bound : p.count < 0x10000
  index : Indexes p.indices p.slots
  methodCount : p.methodCount = p.methods.length
  methodIndex : Indexes p.methodIndices (p.methods.reverse.map some)

theorem tables_empty : Tables {} where
  count := rfl
  bound := by decide
  index := Indexes.empty _ (by simp [slots])
  methodCount := rfl
  methodIndex := Indexes.empty _ (by simp)

/-- The tables of a pool agree with its entries and bootstrap methods, and the handles of bootstrap methods are
handles. -/
structure WF (p : Pool) : Prop extends tables : p.Tables where
  handle : ∀ m ∈ p.methods, ∃ h, ∀ V : PoolView, V.Covers false p → V.methodHandle m.handle = .ok h

theorem wf_empty : WF {} := ⟨tables_empty, by simp⟩

/-- The pool is in order. If it is not `full`, its bootstrap methods may have handles that are none. -/
def Sound : (full : Bool) → Pool → Prop
  | true, p => p.WF
  | false, p => p.Tables

theorem Sound.tables {full : Bool} {p : Pool} (h : p.Sound full) : p.Tables := by
  cases full with
  | false => exact h
  | true => exact WF.tables h

end Pool

theorem getElem?_of_isPrefix {α : Type} {xs ys : List α} {i : Nat} {x : α} (h : xs <+: ys) (hx : xs[i]? = some x) :
    ys[i]? = some x := by
  obtain ⟨hi, rfl⟩ := List.getElem?_eq_some_iff.1 hx
  exact List.prefix_iff_getElem?.1 h i hi

variable {p : Pool} {V : PoolView} {full : Bool}

theorem PoolView.Covers.mono {q : Pool} (h : V.Covers full q) (hpq : p ≤ q) : V.Covers full p where
  entry i e he := h.entry i e (getElem?_of_isPrefix hpq.1 he)
  method hf i m hm := h.method hf i m (getElem?_of_isPrefix hpq.2 hm)

theorem PoolView.Covers.entries (h : V.Covers full p) : V.Covers false p where
  entry := h.entry
  method := nofun

theorem PoolView.Covers.entry_eq_ok (h : V.Covers full p) {i : UInt16}
    {e : PoolEntry} (he : p.slots[i.toNat]? = some (some e)) : V.entry i = .ok e := by
  rw [PoolView.entry, h.entry _ _ he]

theorem PoolView.covers_slots (p : Pool) (methods : List (Handle × List UInt16)) :
    Covers { entries := p.slots.toArray, methods } false p where
  entry i e he := by simpa using he
  method := nofun

theorem Pool.WF.exists_methods (hp : p.WF) : ∃ methods : List (Handle × List UInt16),
    Forall₂ (fun m h => h.2 = m.arguments ∧ ∀ V : PoolView, V.Covers false p → V.methodHandle m.handle = .ok h.1)
      p.methods.reverse methods := by
  have h : ∀ ms : List BootstrapMethod, (∀ m ∈ ms, m ∈ p.methods) → ∃ methods : List (Handle × List UInt16),
      Forall₂ (fun m h => h.2 = m.arguments ∧ ∀ V : PoolView, V.Covers false p →
        V.methodHandle m.handle = .ok h.1) ms methods := by
    intro ms hms
    induction ms with
    | nil => exact ⟨[], .nil⟩
    | cons m ms ih =>
      obtain ⟨handle, hh⟩ := hp.handle m (hms m (by simp))
      obtain ⟨methods, hm⟩ := ih fun m' hm' => hms m' (by simp [hm'])
      exact ⟨(handle, m.arguments) :: methods, .cons ⟨rfl, hh⟩ hm⟩
  exact h _ (by simp)

theorem Pool.covers_of_methods {methods : List (Handle × List UInt16)} (full : Bool)
    (h : Forall₂ (fun m h => h.2 = m.arguments ∧ ∀ V : PoolView, V.Covers false p →
      V.methodHandle m.handle = .ok h.1) p.methods.reverse methods) :
    PoolView.Covers { entries := p.slots.toArray, methods } full p where
  entry := (PoolView.covers_slots p methods).entry
  method _ i m hm := by
    obtain ⟨hi, rfl⟩ := List.getElem?_eq_some_iff.1 hm
    obtain ⟨ha, hh⟩ := (List.forall₂_iff_get.1 h).2 i hi (h.length_eq ▸ hi)
    refine ⟨(methods.get ⟨i, h.length_eq ▸ hi⟩).1, ?_, hh _ (PoolView.covers_slots p methods)⟩
    rw [getElem?_eq_getElem (h.length_eq ▸ hi), Option.some.injEq]
    exact Prod.ext rfl ha

theorem Pool.Sound.exists_covers (hp : p.Sound full) : ∃ V : PoolView, V.Covers full p := by
  cases full with
  | false => exact ⟨_, PoolView.covers_slots p []⟩
  | true =>
    obtain ⟨methods, hm⟩ := Pool.WF.exists_methods hp
    exact ⟨_, Pool.covers_of_methods true hm⟩

/-! ## Putting entries -/

namespace Pool

variable {p q : Pool} {i : UInt16} {e : PoolEntry} {m : BootstrapMethod}

def add (p : Pool) (e : PoolEntry) : Pool :=
  { p with
    count := p.count + e.slots
    entries := e :: p.entries
    indices := p.indices.insert e (UInt16.ofNat p.count) }

def addMethod (p : Pool) (m : BootstrapMethod) : Pool :=
  { p with
    methods := m :: p.methods
    methodCount := p.methodCount + 1
    methodIndices := p.methodIndices.insert m (UInt16.ofNat p.methodCount) }

theorem slots_add (p : Pool) (e : PoolEntry) : (p.add e).slots = p.slots ++ e.places := by simp [add, slots]

theorem le_add (p : Pool) (e : PoolEntry) : p ≤ p.add e :=
  ⟨slots_add p e ▸ prefix_append _ _, prefix_rfl⟩

theorem le_addMethod (p : Pool) (m : BootstrapMethod) : p ≤ p.addMethod m :=
  ⟨prefix_rfl, by simp [addMethod]⟩

theorem put_eq_ok_iff : put e p = .ok i q ↔ p.indices[e]? = some i ∧ q = p ∨
    p.indices[e]? = none ∧ p.count + e.slots < 0x10000 ∧ i = UInt16.ofNat p.count ∧ q = p.add e := by
  unfold put
  cases p.indices[e]? with
  | some j => simp [eq_comm]
  | none =>
    simp only [reduceCtorEq, false_and, true_and, false_or]
    split
    next hc => simp [hc, add, eq_comm]
    next hc => simp [hc]

theorem put_eq_error_iff {f : Fault} : put e p = .error f q ↔
    p.indices[e]? = none ∧ ¬ p.count + e.slots < 0x10000 ∧ f = .write (.poolFull e p.count) ∧ q = p := by
  unfold put
  cases p.indices[e]? with
  | some j => simp
  | none =>
    simp only [true_and]
    split
    next hc => simp [hc]
    next hc => simp [hc, eq_comm]

theorem putMethod_eq_ok_iff : putMethod m p = .ok i q ↔ p.methodIndices[m]? = some i ∧ q = p ∨
    p.methodIndices[m]? = none ∧ p.methodCount < 0x10000 ∧ i = UInt16.ofNat p.methodCount ∧ q = p.addMethod m := by
  unfold putMethod
  cases p.methodIndices[m]? with
  | some j => simp [eq_comm]
  | none =>
    simp only [reduceCtorEq, false_and, true_and, false_or]
    split
    next hc => simp [hc, addMethod, eq_comm]
    next hc => simp [hc]

theorem putMethod_eq_error {f : Fault} (h : putMethod m p = .error f q) : q = p := by
  unfold putMethod at h
  split at h
  next => cases h
  next =>
    split at h
    next => cases h
    next => exact (EStateM.Result.error.inj h).2.symm

theorem Tables.add (hp : p.Tables) (hn : p.indices[e]? = none) (hc : p.count + e.slots < 0x10000) :
    (p.add e).Tables where
  count := by
    rw [slots_add, length_append, e.length_places, ← hp.count]
    rfl
  bound := hc
  index := by
    rw [slots_add, Pool.add, hp.count]
    refine hp.index.insert hn (hp.count ▸ hp.bound) fun o ho => ?_
    split at ho <;> simp_all
  methodCount := hp.methodCount
  methodIndex := hp.methodIndex

theorem Tables.addMethod (hp : p.Tables) (hn : p.methodIndices[m]? = none)
    (hc : p.methodCount < 0x10000) : (p.addMethod m).Tables where
  count := hp.count
  bound := hp.bound
  index := hp.index
  methodCount := by simp [Pool.addMethod, hp.methodCount]
  methodIndex := by
    have hl : (p.methods.reverse.map some).length = p.methodCount := by simp [hp.methodCount]
    have := hp.methodIndex.insert hn (hl ▸ hc) (t := []) (by simp)
    rw [hl] at this
    simpa [Pool.addMethod] using this

theorem Tables.getElem?_add (hp : p.Tables) (e : PoolEntry) :
    (p.add e).slots[(UInt16.ofNat p.count).toNat]? = some (some e) := by
  rw [slots_add, UInt16.toNat_ofNat_of_lt' hp.bound, hp.count, getElem?_append_right le_rfl, Nat.sub_self]
  rfl

theorem Tables.getElem?_addMethod (hp : p.Tables) (m : BootstrapMethod) (hc : p.methodCount < 0x10000) :
    (p.addMethod m).methods.reverse[(UInt16.ofNat p.methodCount).toNat]? = some m := by
  rw [UInt16.toNat_ofNat_of_lt' hc, hp.methodCount]
  simp [Pool.addMethod]

theorem Tables.method_of_index (hp : p.Tables) (h : p.methodIndices[m]? = some i) :
    p.methods.reverse[i.toNat]? = some m := by
  have hm := (hp.methodIndex m i).1 h
  rw [getElem?_map, Option.map_eq_some_iff] at hm
  obtain ⟨m', hm, he⟩ := hm
  exact Option.some.inj he ▸ hm

theorem put_of_slot (hp : p.Tables) (h : p.slots[i.toNat]? = some (some e)) : put e p = .ok i p := by
  rw [put, (hp.index e i).2 h]

theorem put_new (h : p.indices[e]? = none) (hc : p.count + e.slots < 0x10000) :
    put e p = .ok (UInt16.ofNat p.count) (p.add e) :=
  put_eq_ok_iff.2 (.inr ⟨h, hc, rfl, rfl⟩)

theorem Sound.add {full : Bool} (hp : p.Sound full) (hn : p.indices[e]? = none) (hc : p.count + e.slots < 0x10000) :
    (p.add e).Sound full := by
  have ht := hp.tables.add hn hc
  cases full with
  | false => exact ht
  | true =>
    refine ⟨ht, fun m hm => ?_⟩
    obtain ⟨h, hh⟩ := WF.handle hp m hm
    exact ⟨h, fun V hV => hh V (hV.mono (le_add p e))⟩

theorem put_eq_ok {full : Bool} (hp : p.Sound full) (h : put e p = .ok i q) :
    q.Sound full ∧ p ≤ q ∧ q.slots[i.toNat]? = some (some e) := by
  rcases put_eq_ok_iff.1 h with ⟨hj, rfl⟩ | ⟨hn, hc, rfl, rfl⟩
  · exact ⟨hp, le_rfl, (hp.tables.index e i).1 hj⟩
  · exact ⟨hp.add hn hc, le_add p e, hp.tables.getElem?_add e⟩

theorem putMethod_of_method (hp : p.Tables) (h : p.methods.reverse[i.toNat]? = some m) : putMethod m p = .ok i p := by
  rw [putMethod, (hp.methodIndex m i).2 (by rw [getElem?_map, h]; rfl)]

theorem putMethod_eq_ok {handle : Handle} (hp : p.WF)
    (hh : ∀ V : PoolView, V.Covers false p → V.methodHandle m.handle = .ok handle) (h : putMethod m p = .ok i q) :
    q.WF ∧ p ≤ q ∧ q.methods.reverse[i.toNat]? = some m := by
  rcases putMethod_eq_ok_iff.1 h with ⟨hj, rfl⟩ | ⟨hn, hc, rfl, rfl⟩
  · exact ⟨hp, le_rfl, hp.tables.method_of_index hj⟩
  · have hle := le_addMethod p m
    refine ⟨⟨hp.tables.addMethod hn hc, fun m' hm' => ?_⟩, hle, hp.tables.getElem?_addMethod m hc⟩
    rcases mem_cons.1 hm' with rfl | hm'
    · exact ⟨handle, fun V hV => hh V (hV.mono hle)⟩
    · obtain ⟨h, hh⟩ := hp.handle m' hm'
      exact ⟨h, fun V hV => hh V (hV.mono hle)⟩

end Pool

end ClassDoc
