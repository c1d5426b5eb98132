/-
  What stands in the pool after a computation that puts entries.
-/
import ClassDoc.Proofs.Pool.Invariant
import ClassDoc.Proofs.Text.JavaText
namespace ClassDoc

open List

/-- A put leaves a sound pool that has what it needs, and its index says `Q` to any reader. -/
structure PutStep {α : Type} (full : Bool) (x : PoolM α) (Q : Pool → PoolView → α → Prop) (p : Pool) (a : α)
    (q : Pool) : Prop where
  wf : q.Sound full
  le : p ≤ q
  /-- All that it needs is there now. -/
  again : ∀ r : Pool, r.Sound full → q ≤ r → x r = .ok a r
  seen : ∀ (P : Pool) (V : PoolView), P.Sound full → q ≤ P → V.Covers full P → Q P V a

/-- Every successful run of `x` is a step. -/
def PutsIn {α : Type} (full : Bool) (x : PoolM α) (Q : Pool → PoolView → α → Prop) : Prop :=
  ∀ ⦃p a q⦄, p.Sound full → x p = .ok a q → PutStep full x Q p a q

/-- What the index of a put says does not depend on the pool. -/
abbrev Puts {α : Type} (full : Bool) (x : PoolM α) (Q : PoolView → α → Prop) : Prop := PutsIn full x fun _ => Q

variable {α β : Type} {full : Bool} {x : PoolM α} {Q R : Pool → PoolView → α → Prop}

/-! ## Computations one after the other -/

namespace PutsIn

theorem mono (h : PutsIn full x Q) (hQ : ∀ P V a, Q P V a → R P V a) : PutsIn full x R := by
  intro p a q hp hx
  have s := h hp hx
  exact { s with seen := fun P V hP hle hV => hQ P V a (s.seen P V hP hle hV) }

theorem and (h : PutsIn full x Q) (h' : PutsIn full x R) : PutsIn full x fun P V a => Q P V a ∧ R P V a := by
  intro p a q hp hx
  have s := h hp hx
  exact { s with seen := fun P V hP hle hV => ⟨s.seen P V hP hle hV, (h' hp hx).seen P V hP hle hV⟩ }

theorem pure {a : α} (h : ∀ P V, Q P V a) : PutsIn full (Pure.pure a) Q := by
  intro p b q hp hx
  obtain ⟨rfl, rfl⟩ : a = b ∧ p = q := EStateM.Result.ok.inj hx
  exact ⟨hp, le_rfl, fun r _ _ => rfl, fun P V _ _ _ => h P V⟩

theorem throw (f : Fault) : PutsIn full (throw f) Q := fun _ _ _ _ hx => nomatch hx

variable {S : Pool → PoolView → β → Prop} {f : α → PoolM β}

theorem bind_exists (hx : PutsIn full x Q)
    (hf : ∀ a, (∃ P V, Q P V a) → PutsIn full (f a) fun P V b => Q P V a → S P V b) : PutsIn full (x >>= f) S := by
  intro p b q hp h
  obtain ⟨a, r, ha, hb⟩ := run_bind_eq_ok.1 h
  have s := hx hp ha
  obtain ⟨V, hV⟩ := s.wf.exists_covers
  have hQ := s.seen r V s.wf le_rfl hV
  have t := hf a ⟨_, _, hQ⟩ s.wf hb
  refine ⟨t.wf, s.le.trans t.le, fun u hu hle => ?_, fun P V hP hle hV => ?_⟩
  · exact run_bind_eq_ok.2 ⟨a, u, s.again u hu (t.le.trans hle), t.again u hu hle⟩
  · exact t.seen P V hP hle hV (s.seen P V hP (t.le.trans hle) hV)

theorem bind (hx : PutsIn full x Q)
    (hf : ∀ a, PutsIn full (f a) fun P V b => Q P V a → S P V b) : PutsIn full (x >>= f) S :=
  hx.bind_exists fun a _ => hf a

theorem map {f : α → β} (hx : PutsIn full x Q)
    (hf : ∀ P V a, Q P V a → S P V (f a)) : PutsIn full (x >>= fun a => Pure.pure (f a)) S :=
  hx.bind fun a => pure fun P V => hf P V a

theorem lift (x : Except Fault α) : PutsIn full (liftM x) fun _ _ a => x = .ok a := by
  intro p a q hp h
  obtain ⟨ha, rfl⟩ := run_lift_eq_ok.1 h
  exact ⟨hp, le_rfl, fun r _ _ => run_lift_eq_ok.2 ⟨ha, rfl⟩, fun _ _ _ _ _ => ha⟩

theorem inPlace (place : Place) (h : PutsIn full x Q) : PutsIn full (ClassDoc.inPlace place x) Q := by
  intro p a q hp hx
  have s := h hp (inPlace_eq_ok.1 hx)
  exact { s with again := fun r hr hle => inPlace_eq_ok.2 (s.again r hr hle) }

theorem mapM {S : α → Pool → PoolView → β → Prop} {xs : List α} (h : ∀ a ∈ xs, PutsIn full (f a) (S a)) :
    PutsIn full (xs.mapM f) fun P V bs => Forall₂ (fun a b => S a P V b) xs bs := by
  induction xs with
  | nil => exact pure fun _ _ => .nil
  | cons a xs ih =>
    rw [mapM_cons]
    exact (h a (by simp)).bind fun b => (ih fun a' ha' => h a' (by simp [ha'])).bind fun bs =>
      pure fun _ _ hbs hb => .cons hb hbs

end PutsIn

namespace Puts

variable {Q R : PoolView → α → Prop} {S : PoolView → β → Prop} {f : α → PoolM β}

theorem mono (h : Puts full x Q) (hQ : ∀ V a, Q V a → R V a) : Puts full x R := PutsIn.mono h fun _ => hQ

theorem pure {a : α} (h : ∀ V, Q V a) : Puts full (Pure.pure a) Q := PutsIn.pure fun _ => h

theorem bind (hx : Puts full x Q) (hf : ∀ a, Puts full (f a) fun V b => Q V a → S V b) : Puts full (x >>= f) S :=
  PutsIn.bind hx hf

theorem map {f : α → β} (hx : Puts full x Q) (hf : ∀ V a, Q V a → S V (f a)) :
    Puts full (x >>= fun a => Pure.pure (f a)) S :=
  PutsIn.map hx fun _ => hf

theorem lift (x : Except Fault α) : Puts full (liftM x) fun _ a => x = .ok a := PutsIn.lift x

theorem mapM {S : α → PoolView → β → Prop} {xs : List α} (h : ∀ a ∈ xs, Puts full (f a) (S a)) :
    Puts full (xs.mapM f) fun V bs => Forall₂ (fun a b => S a V b) xs bs :=
  PutsIn.mapM h

end Puts

/-! ## Entries -/

theorem puts_put (e : PoolEntry) : Puts full (Pool.put e) fun V i => V.entry i = .ok e := by
  intro p i q hp h
  obtain ⟨hq, hle, hs⟩ := Pool.put_eq_ok hp h
  refine ⟨hq, hle, fun r hr hqr => ?_, fun P V _ hqP hV => (hV.mono hqP).entry_eq_ok hs⟩
  exact Pool.put_of_slot hr.tables (getElem?_of_isPrefix hqr.1 hs)

theorem puts_put_ne_zero (e : PoolEntry) : Puts full (Pool.put e) fun _ i => i ≠ 0 := by
  intro p i q hp h
  have s := @puts_put full e p i q hp h
  refine { s with seen := fun _ _ _ _ _ h0 => ?_ }
  have hs := (Pool.put_eq_ok hp h).2.2
  rw [h0] at hs
  exact nomatch hs

theorem puts_text (t : JavaText) : Puts full (Pool.text t) fun V i => V.text i = .ok t :=
  (puts_put _).mono fun V i he => by rw [PoolView.text, he, ok_bind]

theorem puts_utf8 (s : String) : Puts full (Pool.utf8 s) fun V i => V.utf8 i = .ok s :=
  (puts_text _).mono fun V i ht => by
    rw [PoolView.utf8, ht, ok_bind, plainText, JavaText.toString?_ofString, within_ok]

variable (name : String)

theorem puts_classRef : Puts full (Pool.classRef name) fun V i => V.classRef i = .ok name :=
  (puts_utf8 name).bind fun n => (puts_put _).mono fun V i he hn => by
    rw [PoolView.classRef, he, ok_bind]
    exact within_eq_ok.2 hn

theorem puts_module : Puts full (Pool.module name) fun V i => V.module i = .ok name :=
  (puts_utf8 name).bind fun n => (puts_put _).mono fun V i he hn => by
    rw [PoolView.module, he, ok_bind]
    exact within_eq_ok.2 hn

theorem puts_package : Puts full (Pool.package name) fun V i => V.package i = .ok name :=
  (puts_utf8 name).bind fun n => (puts_put _).mono fun V i he hn => by
    rw [PoolView.package, he, ok_bind]
    exact within_eq_ok.2 hn

theorem optional_eq_ok {get : UInt16 → Except Fault α} {i : UInt16} {a : α} (h : get i = .ok a) (hi : i ≠ 0) :
    PoolView.optional get i = .ok (some a) := by
  rw [PoolView.optional, if_neg hi, h]
  rfl

theorem puts_optionalUtf8 (s : Option String) :
    Puts full (Pool.optionalUtf8 s) fun V i => PoolView.optional V.utf8 i = .ok s := by
  cases s with
  | none => exact .pure fun V => rfl
  | some s => exact ((puts_utf8 s).and (puts_put_ne_zero _)).mono fun _ V i h => optional_eq_ok h.1 h.2

theorem puts_optionalClass (name : Option String) :
    Puts full (Pool.optionalClass name) fun V i => PoolView.optional V.classRef i = .ok name := by
  cases name with
  | none => exact .pure fun V => rfl
  | some name =>
    have h0 : Puts full (Pool.classRef name) fun _ i => i ≠ 0 :=
      (puts_utf8 name).bind fun n => (puts_put_ne_zero _).mono fun _ _ hi _ => hi
    exact ((puts_classRef name).and h0).mono fun _ V i h => optional_eq_ok h.1 h.2

theorem puts_nameAndType (descriptor : String) :
    Puts full (Pool.nameAndType name descriptor) fun V i => V.nameAndType i = .ok (name, descriptor) :=
  (puts_utf8 name).bind fun n => (puts_utf8 descriptor).bind fun d => (puts_put _).mono fun V i he hd hn => by
    rw [PoolView.nameAndType, he, ok_bind]
    simp only [hn, hd, ok_bind]
    rfl

theorem memberOf_eq_ok {V : PoolView} {o m : UInt16} {owner name descriptor : String} (interface : Bool)
    (ho : V.classRef o = .ok owner) (hm : V.nameAndType m = .ok (name, descriptor)) :
    V.memberOf o m interface = .ok ⟨owner, name, descriptor, interface⟩ := by
  rw [PoolView.memberOf, ho, ok_bind, hm]
  rfl

theorem puts_fieldRef (owner name descriptor : String) : Puts full (Pool.fieldRef owner name descriptor) fun V i =>
    V.memberRef i = .ok ⟨owner, name, descriptor, false⟩ :=
  (puts_classRef owner).bind fun o => (puts_nameAndType name descriptor).bind fun m =>
    (puts_put _).mono fun V i he hm ho => by
      rw [PoolView.memberRef, he, ok_bind]
      exact memberOf_eq_ok false ho hm

theorem puts_methodRef (owner name descriptor : String) (interface : Bool) :
    Puts full (Pool.methodRef owner name descriptor interface) fun V i =>
      V.memberRef i = .ok ⟨owner, name, descriptor, interface⟩ :=
  (puts_classRef owner).bind fun o => (puts_nameAndType name descriptor).bind fun m =>
    (puts_put _).mono fun V i he hm ho => by
      rw [PoolView.memberRef, he, ok_bind]
      cases interface <;> exact memberOf_eq_ok _ ho hm

/-! ## Lists -/

theorem puts_indexBytes {put : PoolM UInt16} {get : PoolView → UInt16 → Except Fault α} {a : α}
    (h : Puts full put fun V i => get V i = .ok a) :
    Puts full (indexBytes put) fun V bytes => Decodes (decodeIndex (get V)) bytes a :=
  h.map fun _ _ hi => decodes_index hi

variable {encode : α → PoolM Bytes} {xs : List α}

theorem puts_encodeList_rel {decode : PoolView → Nat → Decode β} {r : α → β → Prop}
    (h : ∀ a ∈ xs, Puts full (encode a) fun V bytes =>
      ∃ b, r a b ∧ ∀ fuel, bytes.length ≤ fuel → Decodes (decode V fuel) bytes b) :
    Puts full (encodeList encode xs) fun V bytes =>
      ∃ bs, Forall₂ r xs bs ∧ ∀ fuel, bytes.length ≤ fuel → Decodes (Decode.list (decode V fuel)) bytes bs := by
  refine (Puts.lift _).bind fun count => (Puts.mapM h).bind fun parts => .pure fun V hp hc => ?_
  have hs : ∀ {xs : List α} {parts : List Bytes}, Forall₂ (fun a bytes =>
      ∃ b, r a b ∧ ∀ fuel, bytes.length ≤ fuel → Decodes (decode V fuel) bytes b) xs parts →
      ∃ bs, Forall₂ r xs bs ∧
        ∀ fuel, parts.flatten.length ≤ fuel → Forall₂ (Decodes (decode V fuel)) parts bs := by
    intro xs parts hp
    induction hp with
    | nil => exact ⟨[], .nil, fun _ _ => .nil⟩
    | cons hb _ ih =>
      obtain ⟨b, hr, hb⟩ := hb
      obtain ⟨bs, hrs, hbs⟩ := ih
      refine ⟨b :: bs, .cons hr hrs, fun fuel hf => ?_⟩
      rw [flatten_cons, length_append] at hf
      exact .cons (hb fuel (by omega)) (hbs fuel (by omega))
  obtain ⟨bs, hr, hd⟩ := hs hp
  refine ⟨bs, hr, fun fuel hf => .list (hr.length_eq ▸ hc) (hd fuel ?_)⟩
  rw [length_append] at hf
  omega

theorem puts_encodeList {decode : PoolView → Decode β} {g : α → β}
    (h : ∀ a ∈ xs, Puts full (encode a) fun V bytes => Decodes (decode V) bytes (g a)) :
    Puts full (encodeList encode xs) fun V bytes => Decodes (Decode.list (decode V)) bytes (xs.map g) :=
  (Puts.lift _).bind fun count => (Puts.mapM h).bind fun parts => .pure fun V hp hc =>
    .list (by rwa [length_map]) (forall₂_map_right_iff.2 hp.flip)

theorem puts_encodeList_self {decode : PoolView → Decode α}
    (h : ∀ a ∈ xs, Puts full (encode a) fun V bytes => Decodes (decode V) bytes a) :
    Puts full (encodeList encode xs) fun V bytes => Decodes (Decode.list (decode V)) bytes xs :=
  (puts_encodeList (g := id) h).mono fun _ _ hb => map_id xs ▸ hb

end ClassDoc
