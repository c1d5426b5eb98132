/-
  What reading a class file can bring about.
-/
import ClassDoc.Proofs.ClassFile.Elements
import ClassDoc.Proofs.Code.Decoded
namespace ClassDoc

open List

variable {α β : Type} {ps : List Part} {bytes : Bytes} {events : List ClassEvent} {f : α → Part} {d : Decode α}
  (pool : PoolView)

/-- The events among items, which come the last one first. -/
def eventsIn (items : List TraceItem) : List ClassEvent := items.reverse.filterMap TraceItem.event?

@[simp] theorem eventsIn_nil : eventsIn [] = [] := rfl

@[simp] theorem eventsIn_append (new items : List TraceItem) : eventsIn (new ++ items) = eventsIn items ++ eventsIn new := by
  simp [eventsIn]

theorem eventsIn_inside (p : Place) (items : List TraceItem) :
    eventsIn (items.map (TraceItem.inside p)) = eventsIn items := by
  rw [eventsIn, ← map_reverse, filterMap_map, eventsIn]
  congr 1
  funext i
  cases i <;> rfl

/-- Where `x` ends, it adds events, and `P` holds of them. -/
def Gives (x : ReadM α) (i : Input) (P : α → Input → List ClassEvent → Prop) : Prop :=
  ∀ items a s, x (i, items) = .ok a s → ∃ new, s.2 = new ++ items ∧ P a s.1 (eventsIn new)

/-- A run of `x` that adds the events. -/
def Ran (x : ReadM α) (i : Input) (a : α) (j : Input) (events : List ClassEvent) : Prop :=
  ∃ items new, x (i, items) = .ok a (j, new ++ items) ∧ events = eventsIn new

namespace Gives

variable {x : ReadM α} {f : α → ReadM β} {i : Input} {P Q : α → Input → List ClassEvent → Prop}
  {R : β → Input → List ClassEvent → Prop} {w : Warning} {d : Decode α}

theorem mono (h : Gives x i Q) (hP : ∀ a j es, Q a j es → P a j es) : Gives x i P := by
  intro items a s hs
  obtain ⟨new, hn, hq⟩ := h items a s hs
  exact ⟨new, hn, hP _ _ _ hq⟩

theorem ran (h : Gives x i P) : Gives x i fun a j es => P a j es ∧ Ran x i a j es := by
  intro items a s hs
  obtain ⟨new, hn, hp⟩ := h items a s hs
  obtain ⟨j, items'⟩ := s
  obtain rfl : items' = new ++ items := hn
  exact ⟨new, rfl, hp, items, new, hs, rfl⟩

theorem of_ran {a : α} {j : Input} {es : List ClassEvent} (h : Gives x i P) (hr : Ran x i a j es) : P a j es := by
  obtain ⟨items, new, hs, rfl⟩ := hr
  obtain ⟨new', hn, hp⟩ := h items a _ hs
  obtain rfl := append_cancel_right hn
  exact hp

theorem pure {a : α} (h : P a i []) : Gives (Pure.pure a) i P := by
  rintro items b s hs
  cases hs
  exact ⟨[], rfl, h⟩

theorem throw (f : Fault) : Gives (throw f : ReadM α) i P := fun _ _ _ hs => nomatch hs

theorem bind (hx : Gives x i Q) (hf : ∀ a j es, Q a j es → Gives (f a) j fun b k es' => R b k (es ++ es')) :
    Gives (x >>= f) i R := by
  intro items b s hs
  obtain ⟨a, ⟨j, items'⟩, ha, hb⟩ := run_bind_eq_ok.1 hs
  obtain ⟨new, rfl, hq⟩ := hx items a _ ha
  obtain ⟨new', hn, hr⟩ := hf a j _ hq _ b s hb
  exact ⟨new' ++ new, by rw [hn, append_assoc], by rwa [eventsIn_append]⟩

theorem lift {y : Except Fault α} (h : ∀ a, y = .ok a → P a i []) : Gives (liftM y) i P := by
  intro items a s hs
  obtain ⟨ha, rfl⟩ := run_lift_eq_ok.1 hs
  exact ⟨[], rfl, h a ha⟩

theorem take (h : ∀ a j, d i = .ok (a, j) → P a j []) : Gives (ClassDoc.take d) i P := by
  intro items a s hs
  rw [ClassDoc.take] at hs
  cases hd : d i with
  | error e => simp [hd] at hs
  | ok p =>
    obtain ⟨b, j⟩ := p
    rw [hd] at hs
    cases hs
    exact ⟨[], rfl, h a j hd⟩

theorem take_bind (h : ∀ a j, d i = .ok (a, j) → Gives (f a) j R) : Gives (ClassDoc.take d >>= f) i R := by
  have ht : Gives (ClassDoc.take d) i fun a j es => d i = .ok (a, j) ∧ es = [] := take fun a j hd => ⟨hd, rfl⟩
  refine ht.bind fun a j es hd => ?_
  obtain ⟨hd, rfl⟩ := hd
  exact h a j hd

theorem get_bind {f : Input × List TraceItem → ReadM β} (h : ∀ items, Gives (f (i, items)) i R) :
    Gives (get >>= f) i R :=
  fun items b s hs => h items items b s hs

theorem emit {P : Unit → Input → List ClassEvent → Prop} {e : ClassEvent} (h : P () i [e]) : Gives (emit e) i P := by
  rintro items a s hs
  cases hs
  exact ⟨[.event [] e], rfl, h⟩

theorem emitEvents {P : PUnit → Input → List ClassEvent → Prop} (h : P () i events) :
    Gives (events.forM ClassDoc.emit) i P := by
  have hs : ∀ items, (events.forM ClassDoc.emit : ReadM PUnit) (i, items)
      = .ok () (i, (events.map (TraceItem.event [])).reverse ++ items) := by
    clear h
    induction events with
    | nil => exact fun _ => rfl
    | cons e events ih =>
      intro items
      have hc : ((e :: events).forM ClassDoc.emit : ReadM PUnit) (i, items)
          = (events.forM ClassDoc.emit : ReadM PUnit) (i, .event [] e :: items) := rfl
      rw [hc, ih]
      simp
  intro items a s hr
  rw [hs] at hr
  cases hr
  refine ⟨_, rfl, ?_⟩
  have he : eventsIn (events.map (TraceItem.event [])).reverse = events := by
    simp [eventsIn, filterMap_map, Function.comp_def, TraceItem.event?]
  rwa [he]

theorem warn {P : Unit → Input → List ClassEvent → Prop} (h : P () i []) : Gives (warn w) i P := by
  rintro items a s hs
  cases hs
  exact ⟨[.warning w], rfl, h⟩

theorem warned {c : Prop} [Decidable c] {f : Unit → ReadM β} (h : Gives (f ()) i R) :
    Gives (if c then ClassDoc.warn w >>= f else f ()) i R := by
  split
  · refine bind (Q := fun _ j es => j = i ∧ es = []) (warn ⟨rfl, rfl⟩) fun _ j es hj => ?_
    obtain ⟨rfl, rfl⟩ := hj
    exact h
  · exact h

theorem inside {p : Place} (h : Gives x i P) : Gives (tracedInside p x) i P := by
  intro items a s hs
  rw [tracedInside] at hs
  cases hx : x (i, []) with
  | error e t => simp [hx] at hs
  | ok b t =>
    obtain ⟨j, inner⟩ := t
    rw [hx] at hs
    cases hs
    obtain ⟨new, hn, hp⟩ := h [] a _ hx
    obtain rfl : inner = new := by simpa using hn
    exact ⟨_, rfl, by rwa [eventsIn_inside]⟩

theorem readAt {j : Input} (h : Gives x j fun a _ es => P a i es) : Gives (readAt j x) i P := by
  intro items a s hs
  obtain ⟨b, ⟨k, items'⟩, hb, hs⟩ : ∃ b t, x (j, items) = .ok b t ∧ EStateM.Result.ok b (i, t.2) = .ok a s := by
    have hr : ClassDoc.readAt j x (i, items) = (x >>= fun a => do
        modify fun s => (i, s.2)
        return a) (j, items) := rfl
    rw [hr] at hs
    obtain ⟨b, t, hb, hs⟩ := run_bind_eq_ok.1 hs
    exact ⟨b, t, hb, hs⟩
  cases hs
  obtain ⟨new, hn, hp⟩ := h items a _ hb
  exact ⟨new, hn, hp⟩

theorem skipAttribute {P : Option α → Input → List ClassEvent → Prop} {length : Nat}
    (h : ∀ j, Decode.skip length i = .ok ((), j) → P none j []) : Gives (skipAttribute w length) i P :=
  bind (Q := fun _ j es => j = i ∧ es = []) (warn ⟨rfl, rfl⟩) fun _ j es hj => by
    obtain ⟨rfl, rfl⟩ := hj
    exact take_bind fun _ j hd => pure (h j hd)

end Gives

/-! ## What is decoded -/

/-- All that is decoded satisfies `P`. -/
def Decode.Only (d : Decode α) (P : α → Prop) : Prop := ∀ i a j, d i = .ok (a, j) → P a

namespace Decode.Only

variable {d : Decode α} {P : α → Prop} {Q : β → Prop} {f : α → Decode β}

theorem any (d : Decode α) : Only d fun _ => True := fun _ _ _ _ => trivial

theorem pure {a : α} (h : P a) : Only (Pure.pure a) P := by
  rintro i b j hd
  cases hd
  exact h

theorem problem (p : ReadProblem) : Only (problem p) P := fun _ _ _ hd => nomatch hd

theorem bind (hd : Only d P) (hf : ∀ a, P a → Only (f a) Q) : Only (d >>= f) Q := by
  intro i b k hb
  obtain ⟨a, j, ha, hb⟩ := decode_bind_eq_ok.1 hb
  exact hf a (hd i a j ha) j b k hb

theorem any_bind (hf : ∀ a, Only (f a) Q) : Only (d >>= f) Q := (any d).bind fun a _ => hf a

theorem timesFrom (h : Only d P) (count : Nat) {found : List α} (hf : ∀ a ∈ found, P a) :
    Only (Decode.timesFrom d count found) fun as => ∀ a ∈ as, P a := by
  induction count generalizing found with
  | zero => exact pure (by simpa using hf)
  | succ count ih =>
    rw [timesFrom_succ]
    exact h.bind fun a ha => ih (forall_mem_cons.2 ⟨ha, hf⟩)

theorem list (h : Only d P) : Only (Decode.list d) fun as => ∀ a ∈ as, P a :=
  any_bind fun _ => h.timesFrom _ (by simp)

end Decode.Only

theorem only_target (length : Option UInt16) (form : TargetType.Form) :
    Decode.Only (TypeTarget.decode length form) fun target => target.form = form := by
  cases form
  all_goals
    unfold TypeTarget.decode
    first
      | exact .pure rfl
      | exact .any_bind fun _ => .pure rfl
      | exact .any_bind fun _ => .any_bind fun _ => .pure rfl
      | exact .any_bind fun _ => .any_bind fun _ => .any_bind fun _ => .pure rfl

def TypeAnnotation.IsExternal {L : Type} (a : TypeAnnotation L) : Prop :=
  TargetType.isCode a.targetType = false ∧ a.target.fits a.targetType = true

theorem only_types (length : Option UInt16) : Decode.Only (decodeTypes pool length) fun as =>
    ∀ a ∈ as, a.target.fits a.targetType = true ∧ (length = none → a.IsExternal) := by
  refine .any_bind fun fuel => .list (.any_bind fun t => ?_)
  split
  · exact .problem _
  next hc =>
    split
    · exact .problem _
    next form hf =>
      refine (only_target length form).bind fun target ht => .any_bind fun _ => .any_bind fun _ => .pure ?_
      have hfits : target.fits t = true := by rw [TypeTarget.fits, hf, ht, beq_self_eq_true]
      exact ⟨hfits, fun hl => ⟨by simpa [hl] using hc, hfits⟩⟩

/-! ## One after the other -/

/-- The values stand one after the other from an input to another. -/
inductive Chain (At : Input → α → Input → Prop) : Input → List α → Input → Prop where
  | nil {i : Input} : Chain At i [] i
  | cons {i j k : Input} {a : α} {as : List α} (head : At i a j) (tail : Chain At j as k) : Chain At i (a :: as) k

/-- A number and as many values, from `i` to `j`. -/
def ListAt (At : Input → α → Input → Prop) (i : Input) (as : List α) (j : Input) : Prop :=
  ∃ count k, Decode.u2 i = .ok (count, k) ∧ as.length = count.toNat ∧ Chain At k as j

theorem ListAt.exists_at {At : Input → α → Input → Prop} {i j : Input} {as : List α} (h : ListAt At i as j) :
    ∀ a ∈ as, ∃ k l, At k a l := by
  obtain ⟨count, k, -, -, hc⟩ := h
  induction hc with
  | nil => simp
  | cons head _ ih => exact forall_mem_cons.2 ⟨⟨_, _, head⟩, ih⟩

theorem Gives.repeatRead {x : ReadM Unit} {At : Input → α → Input → Prop} {f : α → List ClassEvent}
    (hx : ∀ i, Gives x i fun _ j es => ∃ a, At i a j ∧ es = f a) (count : Nat) (i : Input) :
    Gives (repeatRead x count) i fun _ j es => ∃ as, as.length = count ∧ Chain At i as j ∧ es = as.flatMap f := by
  induction count generalizing i with
  | zero => exact .pure ⟨[], rfl, .nil, rfl⟩
  | succ count ih =>
    refine (hx i).bind fun _ j es he => (ih j).mono fun _ _ es' h => ?_
    obtain ⟨a, ha, rfl⟩ := he
    obtain ⟨as, hl, hc, rfl⟩ := h
    exact ⟨a :: as, by rw [length_cons, hl], .cons ha hc, rfl⟩

/-! ## Attributes -/

/-- An attribute as it is read. -/
structure AttributeRead (α : Type) where
  name : String
  length : Nat
  content : Input
  part : Option α

def AttributeRead.At (part : String → Nat → ReadM (Option α)) (i : Input) (a : AttributeRead α) (j : Input) : Prop :=
  ∃ k length, decodeIndex pool.utf8 i = .ok (a.name, k) ∧ Decode.u4 k = .ok (length, a.content) ∧
    a.length = length.toNat ∧ Ran (part a.name a.length) a.content a.part j []

/-- What is listed in the attribute if it has the name. -/
def AttributeRead.entries (d : Decode (List β)) (name : String) (a : AttributeRead α) : List β :=
  if a.name = name then ((d a.content).toOption.map Prod.fst).getD [] else []

theorem AttributeRead.entries_of_ok {a : AttributeRead α} {d : Decode (List β)} {l : List β} {j : Input}
    (h : d a.content = .ok (l, j)) : a.entries d a.name = l := by
  rw [entries, if_pos rfl, h]
  rfl

def partsOf (as : List (AttributeRead α)) : List α := as.filterMap AttributeRead.part

theorem flatMap_partsOf (as : List (AttributeRead α)) (f : α → List β) :
    (partsOf as).flatMap f = as.flatMap fun a => a.part.toList.flatMap f := by
  rw [partsOf, filterMap_eq_flatMap_toList, flatMap_assoc]

/-- Where `x` ends, it adds no event. -/
def Yields (x : ReadM α) (P : α → Prop) : Prop := ∀ i, Gives x i fun a _ es => es = [] ∧ P a

namespace Yields

variable {P : α → Prop} {Q : β → Prop} {part : String → Nat → ReadM (Option α)} {f : α → ReadM β} {pool : PoolView}
  {d : Decode α} {as : List (AttributeRead α)} {i j : Input}

theorem pure {a : α} (h : P a) : Yields (Pure.pure a) P := fun _ => .pure ⟨rfl, h⟩

theorem take (h : Decode.Only d P) : Yields (ClassDoc.take d) P :=
  fun i => .take fun a j hd => ⟨rfl, h i a j hd⟩

theorem bind {x : ReadM α} (hx : Yields x P) (hf : ∀ a, P a → Yields (f a) Q) : Yields (x >>= f) Q := by
  refine fun i => (hx i).bind fun a j es ha => ?_
  obtain ⟨rfl, ha⟩ := ha
  exact hf a ha j

theorem take_bind (hf : ∀ a, Yields (f a) Q) : Yields (ClassDoc.take d >>= f) Q :=
  bind (take (.any d)) fun a _ => hf a

theorem ite {c : Prop} [Decidable c] {x y : ReadM α} (hx : Yields x P) (hy : Yields y P) :
    Yields (if c then x else y) P := by
  split
  · exact hx
  · exact hy

theorem skipAttribute {P : Option α → Prop} (w : Warning) (length : Nat) (h : P none) :
    Yields (skipAttribute w length) P :=
  fun _ => .skipAttribute fun _ _ => ⟨rfl, h⟩

theorem readAttributesFrom (h : ∀ name length, Yields (part name length) fun o => ∀ a ∈ o, P a) (count : Nat)
    (found : List α) (i : Input) : Gives (readAttributesFrom pool part count found) i fun ps j es =>
      es = [] ∧ ∃ as, as.length = count ∧ Chain (AttributeRead.At pool part) i as j ∧ ps = found.reverse ++ partsOf as := by
  induction count generalizing found i with
  | zero => exact .pure ⟨rfl, [], rfl, .nil, by simp [partsOf]⟩
  | succ count ih =>
    refine .take_bind fun name j hn => .take_bind fun length k hl => (h name _ k).ran.bind fun o l es ho => ?_
    obtain ⟨⟨rfl, -⟩, hr⟩ := ho
    have ha : AttributeRead.At pool part i ⟨name, length.toNat, k, o⟩ l := ⟨j, length, hn, hl, rfl, hr⟩
    cases o with
    | none =>
      refine (ih found l).mono fun ps m es h => ?_
      obtain ⟨rfl, as, hlen, hc, rfl⟩ := h
      exact ⟨rfl, _, by rw [length_cons, hlen], .cons ha hc, by simp [partsOf]⟩
    | some a =>
      refine (ih (a :: found) l).mono fun ps m es h => ?_
      obtain ⟨rfl, as, hlen, hc, rfl⟩ := h
      exact ⟨rfl, _, by rw [length_cons, hlen], .cons ha hc, by simp [partsOf]⟩

theorem mono {x : ReadM α} {P' : α → Prop} (h : Yields x P') (hP : ∀ a, P' a → P a) : Yields x P :=
  fun i => (h i).mono fun a _ _ ha => ⟨ha.1, hP a ha.2⟩

theorem of_ran {x : ReadM α} {a : α} {es : List ClassEvent} (h : Yields x P) (hr : Ran x i a j es) : P a :=
  ((h i).of_ran hr).2

theorem of_mem_partsOf (h : ∀ name length, Yields (part name length) fun o => ∀ a ∈ o, P a)
    (hat : ListAt (AttributeRead.At pool part) i as j) : ∀ p ∈ partsOf as, P p := by
  intro p hp
  obtain ⟨a, hmem, ha⟩ := mem_filterMap.1 hp
  obtain ⟨_, _, _, _, -, -, -, hr⟩ := hat.exists_at a hmem
  exact (h _ _).of_ran hr p ha

theorem readAttributes (h : ∀ name length, Yields (part name length) fun o => ∀ a ∈ o, P a) (i : Input) :
    Gives (readAttributes pool part) i fun ps j es =>
      es = [] ∧ (∀ p ∈ ps, P p) ∧ ∃ as, ListAt (AttributeRead.At pool part) i as j ∧ ps = partsOf as := by
  refine .take_bind fun count k hk => (readAttributesFrom h _ _ k).mono fun ps j es hr => ?_
  obtain ⟨rfl, as, hlen, hc, rfl⟩ := hr
  have hat : ListAt (AttributeRead.At pool part) i as j := ⟨count, k, hk, hlen, hc⟩
  exact ⟨rfl, of_mem_partsOf h hat, as, hat, rfl⟩

end Yields

def Part.Sound : Part → Prop
  | typeAnnotations _ l => ∀ a ∈ l, a.IsExternal
  | record l => ∀ c ∈ l, ∀ a ∈ c.typeAnnotations, a.2.IsExternal
  | parameterAnnotations l => ∀ e ∈ l, e.level = .method ∧ e.isCode = false ∧ e.typeAnnotations = []
  | _ => True

def SoundPart (o : Option Part) : Prop := ∀ p ∈ o, p.Sound

def CommonPart (o : Option Part) : Prop := ∀ p ∈ o, p.Sound ∧ ∀ l, p ≠ .parameterAnnotations l

theorem soundPart_some {p : Part} (h : p.Sound) : SoundPart (some p) := by
  rintro _ ⟨rfl⟩
  exact h

theorem soundPart_none : SoundPart none := fun _ h => nomatch h

theorem commonPart_some {p : Part} (h : p.Sound) (hp : ∀ l, p ≠ .parameterAnnotations l) : CommonPart (some p) := by
  rintro _ ⟨rfl⟩
  exact ⟨h, hp⟩

theorem commonPart_none : CommonPart none := fun _ h => nomatch h

theorem yields_part (h : Decode.Only d fun a => (f a).Sound) :
    Yields (take d >>= fun a => pure (some (f a))) SoundPart :=
  .bind (.take h) fun _ ha => .pure (soundPart_some ha)

theorem yields_any (h : ∀ a, (f a).Sound) : Yields (take d >>= fun a => pure (some (f a))) SoundPart :=
  yields_part fun _ a _ _ => h a

theorem yields_readAnyPart (name : String) : Yields (readAnyPart pool name) CommonPart := by
  have ha : ∀ {α : Type} {d : Decode α} {f : α → Part}, (∀ a, (f a).Sound ∧ ∀ l, f a ≠ .parameterAnnotations l) →
      Yields (take d >>= fun a => pure (some (f a))) CommonPart := fun h =>
    .take_bind fun a => .pure (commonPart_some (h a).1 (h a).2)
  have ht : ∀ visible, Yields
      (take (decodeTypes pool none) >>= fun l => pure (some (Part.typeAnnotations visible l))) CommonPart := fun visible =>
    .bind (.take fun i l j h a ha => (only_types pool none i l j h a ha).2 rfl) fun _ hl =>
      .pure (commonPart_some hl (by simp))
  refine .ite (ha fun _ => ⟨trivial, by simp⟩)
    (.ite (ha fun _ => ⟨trivial, by simp⟩) (.ite (ha fun _ => ⟨trivial, by simp⟩) ?_))
  exact .ite (ht _) (.ite (ht _) (.pure commonPart_none))

theorem yields_readElementPart (w : Warning) (name : String) (length : Nat) :
    Yields (readElementPart pool w name length) CommonPart := by
  refine .bind (yields_readAnyPart pool name) fun o ho => ?_
  cases o with
  | some part => exact .pure ho
  | none =>
    cases hm : marker? name with
    | some part =>
      refine .take_bind fun _ => .pure ?_
      rw [marker?] at hm
      split at hm
      · cases hm; exact commonPart_some trivial (by simp)
      · split at hm <;> cases hm
        exact commonPart_some trivial (by simp)
    | none => exact .skipAttribute w length commonPart_none

theorem yields_element (w : Warning) (name : String) (length : Nat) :
    Yields (readElementPart pool w name length) SoundPart :=
  (yields_readElementPart pool w name length).mono fun _ h p hp => (h p hp).1

theorem yields_readFieldPart (field name : String) (length : Nat) :
    Yields (readFieldPart pool field name length) SoundPart :=
  .ite (yields_any fun _ => trivial) (yields_element _ _ _ _)

theorem only_parameterAnnotations (visible : Bool) (descriptor : String) :
    Decode.Only (decodeParameterAnnotations pool visible descriptor) fun l => (Part.parameterAnnotations l).Sound := by
  refine .any_bind fun count => .any_bind fun arguments => .any_bind fun lists => .pure fun e he => ?_
  rcases mem_append.1 he with he | he
  · split at he
    · simp at he
    · rw [mem_singleton.1 he]
      exact ⟨rfl, rfl, rfl⟩
  · obtain ⟨_, -, he⟩ := mem_flatMap.1 he
    obtain ⟨a, -, rfl⟩ := mem_map.1 he
    exact ⟨rfl, rfl, rfl⟩

theorem yields_readMethodPart (method descriptor name : String) (length : Nat) :
    Yields (readMethodPart pool method descriptor name length) SoundPart := by
  have hc : ∀ input, Yields (take (Decode.skip length) >>= fun _ => pure (some (Part.code input))) SoundPart :=
    fun _ => yields_any fun _ => trivial
  refine .ite (fun i => .get_bind fun items => hc i i) ?_
  refine .ite (yields_any fun _ => trivial) (.ite (yields_any fun _ => trivial) ?_)
  refine .ite (yields_part (only_parameterAnnotations _ _ _)) (.ite (yields_part (only_parameterAnnotations _ _ _)) ?_)
  exact .ite (yields_any fun _ => trivial) (yields_element _ _ _ _)

theorem isExternal_of_mem_typeAnnotationsOf (h : ∀ p ∈ ps, p.Sound) :
    ∀ a ∈ Part.typeAnnotationsOf ps, a.2.IsExternal := by
  intro a ha
  obtain ⟨p, hp, ha⟩ := mem_flatMap.1 ha
  split at ha
  next visible l =>
    obtain ⟨b, hb, rfl⟩ := mem_map.1 ha
    obtain ⟨hc, hf⟩ : b.IsExternal := h _ hp b hb
    rw [Part.withoutLabels, TypeAnnotation.idRun_mapLabels]
    exact ⟨hc, (b.fits_map _).trans hf⟩
  next => simp at ha

theorem yields_readComponent :
    Yields (readComponent pool) fun c => ∀ a ∈ c.typeAnnotations, a.2.IsExternal := by
  have hp : ∀ component name length, Yields (readComponentPart pool component name length) SoundPart := by
    refine fun component name length => .bind (yields_readAnyPart _ _) fun o ho => ?_
    cases o with
    | some part => exact .pure fun p hp => (ho p hp).1
    | none => exact .skipAttribute _ _ soundPart_none
  refine .take_bind fun name => .take_bind fun _ => .bind (P := fun ps => ∀ p ∈ ps, p.Sound)
    (fun i => ?_) fun ps hps => .pure ?_
  · exact (Yields.readAttributes (hp name) i).mono fun _ _ _ h => ⟨h.1, h.2.1⟩
  · exact isExternal_of_mem_typeAnnotationsOf hps

theorem yields_readComponentsFrom (count : Nat) {found : List RecordComponent} (hf : (Part.record found).Sound) :
    Yields (readComponentsFrom pool count found) fun l => (Part.record l).Sound := by
  induction count generalizing found with
  | zero =>
    refine .pure fun c hc => hf c ?_
    simpa using hc
  | succ count ih => exact .bind (yields_readComponent pool) fun _ hc => ih (forall_mem_cons.2 ⟨hc, hf⟩)

theorem yields_readClassPart (className name : String) (length : Nat) :
    Yields (readClassPart pool className name length) SoundPart := by
  have hs : ∀ {α : Type} {d : Decode α} {f : α → Part}, (∀ a, (f a).Sound) →
      Yields (take d >>= fun a => pure (some (f a))) SoundPart := yields_any
  have he : Yields (take (decodeEnclosing pool) >>= fun p => pure (some p)) SoundPart :=
    yields_part (.any_bind fun _ => .any_bind fun _ => .pure trivial)
  have hr : Yields (readComponents pool >>= fun l => pure (some (Part.record l))) SoundPart :=
    .bind (.take_bind fun _ => yields_readComponentsFrom _ _ fun _ h => nomatch h) fun _ hl => .pure (soundPart_some hl)
  refine .ite (hs fun _ => trivial) (.ite (hs fun _ => trivial) (.ite (hs fun _ => trivial) (.ite he ?_)))
  refine .ite (hs fun _ => trivial) (.ite (hs fun _ => trivial) (.ite (hs fun _ => trivial) ?_))
  refine .ite (hs fun _ => trivial) (.ite hr (.ite (hs fun _ => trivial) (.ite (hs fun _ => trivial) ?_)))
  exact .ite (hs fun _ => trivial) (yields_element _ _ _ _)

def CodePart.IsAt (length : UInt16) (name : String) (i j : Input) : CodePart → Prop
  | frames l => name = Attribute.stackMapTableName ∧ decodeFrames pool length i = .ok (l, j)
  | lines l => name = Attribute.lineNumberTableName ∧ decodeLines length i = .ok (l, j)
  | locals l => name = Attribute.localVariableTableName ∧ decodeVariables pool length i = .ok (l, j)
  | signatures l =>
    name = Attribute.localVariableTypeTableName ∧ Decode.list (decodeVariableSignature pool) i = .ok (l, j)
  | types visible l => name = Attribute.typeAnnotationsName visible ∧ decodeTypes pool (some length) i = .ok (l, j)

def CodePart.names : List String :=
  [Attribute.stackMapTableName, Attribute.lineNumberTableName, Attribute.localVariableTableName,
    Attribute.localVariableTypeTableName, Attribute.typeAnnotationsName true, Attribute.typeAnnotationsName false]

theorem gives_readCodePart (length : UInt16) (name : String) (size : Nat) (i : Input) :
    Gives (readCodePart pool length name size) i fun o j es =>
      es = [] ∧ ((∃ p, o = some p ∧ p.IsAt pool length name i j) ∨ o = none ∧ name ∉ CodePart.names) := by
  have hp : ∀ {α : Type} {d : Decode α} {f : α → CodePart},
      (∀ a j, d i = .ok (a, j) → (f a).IsAt pool length name i j) →
      Gives (take d >>= fun a => pure (some (f a))) i fun o j es =>
        es = [] ∧ ((∃ p, o = some p ∧ p.IsAt pool length name i j) ∨ o = none ∧ name ∉ CodePart.names) :=
    fun h => .take_bind fun a j hd => .pure ⟨rfl, .inl ⟨_, rfl, h a j hd⟩⟩
  rw [readCodePart]
  iterate 6
    split
    · exact hp fun a j hd => ⟨‹_›, hd⟩
  exact .skipAttribute fun j _ => ⟨rfl, .inr ⟨rfl, by simp [CodePart.names, *]⟩⟩

def CodePart.Sound : CodePart → Prop
  | types _ l => ∀ a ∈ l, a.target.fits a.targetType = true
  | _ => True

theorem yields_readCodePart (length : UInt16) (name : String) (size : Nat) :
    Yields (readCodePart pool length name size) fun o => ∀ p ∈ o, p.Sound := by
  refine fun i => (gives_readCodePart pool length name size i).mono fun o j es h => ⟨h.1, ?_⟩
  obtain ⟨-, ⟨p, rfl, hp⟩ | ⟨rfl, -⟩⟩ := h
  · rintro _ ⟨⟩
    cases p with
    | types visible l => exact fun a ha => (only_types pool _ i l j hp.2 a ha).1
    | _ => trivial
  · rintro _ ⟨⟩

/-! ## Elements -/

def ClassEvent.IsPlain (e : ClassEvent) : Prop := e.level = .element ∧ ∀ a ∈ e.typeAnnotations, a.IsExternal

theorem isPlain_common (h : ∀ p ∈ ps, p.Sound) :
    ∀ e ∈ Part.lastSignature ps ++ Part.markerEvents ps ++ Part.annotationEvents ps, e.IsPlain := by
  intro e he
  simp only [mem_append, Part.lastSignature, Part.markerEvents, Part.annotationEvents, mem_map,
    Option.mem_toList] at he
  rcases he with (he | he | he) | ⟨_, _, rfl⟩ | ⟨a, ha, rfl⟩
  · obtain ⟨p, -, hp⟩ := mem_filterMap.1 (mem_of_getLast? he)
    split at hp <;> cases hp
    exact ⟨rfl, forall_mem_nil _⟩
  · split at he
    · rw [mem_singleton.1 he]; exact ⟨rfl, forall_mem_nil _⟩
    · simp at he
  · split at he
    · rw [mem_singleton.1 he]; exact ⟨rfl, forall_mem_nil _⟩
    · simp at he
  · exact ⟨rfl, forall_mem_nil _⟩
  · exact ⟨rfl, forall_mem_singleton.2 (isExternal_of_mem_typeAnnotationsOf h a ha)⟩

theorem exists_of_decodeIndex {get : UInt16 → Except Fault α} {i j : Input} {a : α} (h : decodeIndex get i = .ok (a, j)) :
    ∃ n, Decode.u2 i = .ok (n, j) ∧ get n = .ok a := by
  obtain ⟨n, k, hn, h⟩ := decode_bind_eq_ok.1 h
  cases hg : get n with
  | error f => rw [hg] at h; cases h
  | ok b =>
    rw [hg] at h
    cases h
    exact ⟨n, hn, hg⟩

/-- A member as it is read. -/
structure MemberRead where
  access : UInt16
  name : String
  descriptor : String
  attributes : List (AttributeRead Part)

namespace MemberRead

def parts (m : MemberRead) : List Part := partsOf m.attributes

def At (part : String → String → String → Nat → ReadM (Option Part)) (i : Input) (m : MemberRead) (j : Input) : Prop :=
  ∃ i₁ i₂ i₃, Decode.u2 i = .ok (m.access, i₁) ∧ decodeIndex pool.utf8 i₁ = .ok (m.name, i₂) ∧
    decodeIndex pool.utf8 i₂ = .ok (m.descriptor, i₃) ∧
    ListAt (AttributeRead.At pool (part m.name m.descriptor)) i₃ m.attributes j

variable {part : String → String → String → Nat → ReadM (Option Part)} {m : MemberRead} {i j : Input}

variable {pool} in
theorem At.sound (h : m.At pool part i j) (hp : ∀ x y name length, Yields (part x y name length) SoundPart) :
    ∀ p ∈ m.parts, p.Sound := by
  obtain ⟨_, _, _, -, -, -, ha⟩ := h
  exact Yields.of_mem_partsOf (hp _ _) ha

def field (m : MemberRead) : FieldHeader × List ClassEvent :=
  (⟨m.access, m.name, m.descriptor, Part.last? (fun | .constantValue c => some c | _ => none) m.parts⟩,
    (fieldEvents m.access m.name m.descriptor m.parts).tail)

end MemberRead

def fieldPart (name _descriptor : String) : String → Nat → ReadM (Option Part) := readFieldPart pool name

theorem gives_readField (i : Input) : Gives (readField pool) i fun _ j es =>
    ∃ m : MemberRead, m.At pool (fieldPart pool) i j ∧ es = .field m.field.1 :: m.field.2 := by
  refine .take_bind fun access i₁ h₁ => .take_bind fun name i₂ h₂ => .take_bind fun descriptor i₃ h₃ => .inside ?_
  refine (Yields.readAttributes (yields_readFieldPart pool name) i₃).bind fun ps k es hp => ?_
  obtain ⟨rfl, -, as, ha, rfl⟩ := hp
  exact .emitEvents ⟨⟨access, name, descriptor, as⟩, ⟨i₁, i₂, i₃, h₁, h₂, h₃, ha⟩, rfl⟩

def decodeCodeHead : Decode (UInt16 × UInt16 × UInt32 × Bytes) := do
  let maxStack ← Decode.u2
  let maxLocals ← Decode.u2
  let length ← Decode.u4
  let bytes ← Decode.bytes length.toNat
  return (maxStack, maxLocals, length, bytes)

/-- Code as it is read at an input. -/
structure CodeRead (start : Input) where
  maxStack : UInt16
  maxLocals : UInt16
  length : UInt32
  bytes : Bytes
  insns : List (UInt16 × Insn UInt16)
  tryCatches : List RawTryCatch
  attributes : List (AttributeRead CodePart)
  handlers : Input
  tables : Input
  stop : Input
  decodes : decodeCodeHead start = .ok ((maxStack, maxLocals, length, bytes), handlers)
  decodesInsns : decodeInsns pool bytes = .ok insns
  decodesHandlers : Decode.list (decodeTryCatch pool length.toUInt16) handlers = .ok (tryCatches, tables)
  readsTables : ListAt (AttributeRead.At pool (readCodePart pool length.toUInt16)) tables attributes stop
  ascending : Ascending 0 length.toUInt16.toNat insns

def CodeRead.raw {start : Input} (c : CodeRead pool start) : RawCode :=
  .ofParts c.maxStack c.maxLocals c.length.toUInt16 c.insns c.tryCatches (partsOf c.attributes)

theorem length_of_bytes {size : Nat} {i j : Input} (h : Decode.bytes size i = .ok (bytes, j)) :
    bytes.length = size := by
  unfold Decode.bytes at h
  dsimp only at h
  split at h
  · cases h
  · cases h
    rw [length_take] at *
    omega

theorem gives_readRawCode (i : Input) : Gives (readRawCode pool) i fun raw j es =>
    es = [] ∧ ∃ c : CodeRead pool i, c.stop = j ∧ c.raw = raw := by
  refine .take_bind fun maxStack i₁ h₁ => .take_bind fun maxLocals i₂ h₂ => .take_bind fun length i₃ h₃ => ?_
  split
  · exact .throw _
  next hlen =>
  have hlt : length.toNat < 0x10000 := by
    rw [not_or, ge_iff_le, UInt32.not_le] at hlen
    exact hlen.2
  refine .take_bind fun bytes i₄ h₄ => .bind (Q := fun insns j es => j = i₄ ∧ es = [] ∧ decodeInsns pool bytes = .ok insns)
    (.lift fun insns hi => ⟨rfl, rfl, hi⟩) fun insns j es he => ?_
  obtain ⟨rfl, rfl, hi⟩ := he
  have ha : Ascending 0 length.toUInt16.toNat insns := by
    have hn := length_of_bytes h₄
    rw [UInt32.toNat_toUInt16, Nat.mod_eq_of_lt hlt, ← hn]
    exact ascending_of_decodeInsns (hn ▸ hlt) hi
  refine .take_bind fun tryCatches i₅ h₅ => ?_
  refine (Yields.readAttributes (yields_readCodePart pool length.toUInt16) i₅).bind fun parts k es hp => ?_
  obtain ⟨rfl, -, as, hat, rfl⟩ := hp
  have hd : decodeCodeHead i = .ok ((maxStack, maxLocals, length, bytes), j) := by
    simp only [decodeCodeHead, decode_bind_eq_ok]
    exact ⟨maxStack, i₁, h₁, maxLocals, i₂, h₂, length, i₃, h₃, bytes, j, h₄, rfl⟩
  exact .pure ⟨rfl, ⟨maxStack, maxLocals, length, bytes, insns, tryCatches, as, j, i₅, k, hd, hi, h₅, hat, ha⟩, rfl, rfl⟩

theorem gives_readCode (i : Input) : Gives (readCode pool) i fun _ j es =>
    ∃ (c : CodeRead pool i) (code : List CodeEvent), c.stop = j ∧ c.raw.events = .ok code ∧ es = code.map .code := by
  refine (gives_readRawCode pool i).bind fun raw k es hr => ?_
  obtain ⟨rfl, c, hs, rfl⟩ := hr
  refine .bind (Q := fun code l es => c.raw.events = .ok code ∧ l = k ∧ es = []) (.lift fun _ h => ⟨h, rfl, rfl⟩)
    fun code l es hc => ?_
  obtain ⟨hc, rfl, rfl⟩ := hc
  have he : (code.forM fun e => emit (.code e) : ReadM PUnit) = (code.map ClassEvent.code).forM emit := by
    simp [forM_map]
  rw [he]
  exact .emitEvents ⟨c, code, hs, hc, rfl⟩

/-- A method as it is read, with its code. -/
structure MethodRead extends MemberRead where
  code : Option ((start : Input) × CodeRead pool start)
  codeEvents : List CodeEvent

namespace MethodRead

variable {pool}

/-- The method stands from `i` to `j`. -/
structure At (i : Input) (m : MethodRead pool) (j : Input) : Prop where
  member : m.toMemberRead.At pool (readMethodPart pool) i j
  code : Part.last? (fun | .code input => some input | _ => none) m.parts = m.code.map Sigma.fst
  events : ∀ c ∈ m.code, c.2.raw.events = .ok m.codeEvents
  none : m.code = none → m.codeEvents = []

def header (m : MethodRead pool) : MethodHeader :=
  ⟨m.access, m.name, m.descriptor, (Part.last? (fun | .exceptions l => some l | _ => Option.none) m.parts).getD []⟩

def head (m : MethodRead pool) : List ClassEvent := (methodEvents m.access m.name m.descriptor m.parts).tail

/-- The events after the header. -/
def inner (m : MethodRead pool) : List ClassEvent := m.head ++ m.codeEvents.map .code

end MethodRead

theorem gives_readMethod (i : Input) : Gives (readMethod pool) i fun _ j es =>
    ∃ m : MethodRead pool, m.At i j ∧ es = .method m.header :: m.inner := by
  refine .take_bind fun access i₁ h₁ => .take_bind fun name i₂ h₂ => .take_bind fun descriptor i₃ h₃ => .inside ?_
  refine (Yields.readAttributes (yields_readMethodPart pool name descriptor) i₃).bind fun ps k es hp => ?_
  obtain ⟨rfl, -, as, ha, rfl⟩ := hp
  have hm : MemberRead.At pool (readMethodPart pool) i ⟨access, name, descriptor, as⟩ k :=
    ⟨i₁, i₂, i₃, h₁, h₂, h₃, ha⟩
  refine .bind (Q := fun _ j es => j = k ∧ es = methodEvents access name descriptor (partsOf as)) (.emitEvents ⟨rfl, rfl⟩)
    fun _ j es hes => ?_
  obtain ⟨rfl, rfl⟩ := hes
  split
  next input hl =>
    refine .readAt ((gives_readCode pool input).mono fun _ _ es hes => ?_)
    obtain ⟨c, code, -, hc, rfl⟩ := hes
    exact ⟨⟨⟨access, name, descriptor, as⟩, some ⟨input, c⟩, code⟩,
      ⟨hm, hl, by rintro _ ⟨⟩; exact hc, by simp⟩, rfl⟩
  next hl =>
    exact .pure ⟨⟨⟨access, name, descriptor, as⟩, none, []⟩, ⟨hm, hl, by simp, fun _ => rfl⟩, rfl⟩

theorem gives_readMembers (i : Input) : Gives (readMembers pool) i fun _ j es =>
    ∃ (fields : List MemberRead) (methods : List (MethodRead pool)) (k : Input),
      ListAt (MemberRead.At pool (fieldPart pool)) i fields k ∧ ListAt MethodRead.At k methods j ∧
      es = fields.flatMap (fun m => .field m.field.1 :: m.field.2) ++ methods.flatMap fun m =>
        .method m.header :: m.inner := by
  refine .take_bind fun n j hn => ?_
  refine (Gives.repeatRead (gives_readField pool) n.toNat j).bind fun _ k es hf => ?_
  obtain ⟨fields, hl, hc, rfl⟩ := hf
  refine .take_bind fun n' k' hn' => (Gives.repeatRead (gives_readMethod pool) n'.toNat k').mono fun _ l es hm => ?_
  obtain ⟨methods, hl', hc', rfl⟩ := hm
  exact ⟨fields, methods, k, ⟨n, j, hn, hl, hc⟩, ⟨n', k', hn', hl', hc'⟩, rfl⟩

/-! ## What is brought about -/

variable {pool}

/-- The code is empty, or it was brought about by what was read of it. -/
def IsRead (code : List CodeEvent) : Prop :=
  code = [] ∨ ∃ raw, RawCode.events raw = .ok code ∧ Ascending 0 raw.length.toNat raw.insns

theorem MethodRead.At.isRead {m : MethodRead pool} {i j : Input} (h : m.At i j) : IsRead m.codeEvents := by
  cases hc : m.code with
  | none => exact .inl (h.none hc)
  | some c => exact .inr ⟨c.2.raw, h.events c hc, c.2.ascending⟩

theorem MemberRead.At.isPlain {m : MemberRead} {i j : Input} (h : m.At pool (fieldPart pool) i j) :
    ∀ e ∈ m.field.2, e.IsPlain :=
  isPlain_common (h.sound fun _ _ => yields_readFieldPart pool _)

def ClassEvent.IsHead (e : ClassEvent) : Prop :=
  e.isInMethod = true ∧ e.isCode = false ∧ ∀ a ∈ e.typeAnnotations, a.IsExternal

theorem ClassEvent.IsPlain.isHead {e : ClassEvent} (h : e.IsPlain) : e.IsHead := by
  refine ⟨by simp [isInMethod, h.1], ?_, h.2⟩
  have hl := h.1
  cases e <;> first | rfl | cases hl

theorem MethodRead.At.isHead {m : MethodRead pool} {i j : Input} (h : m.At i j) : ∀ e ∈ m.head, e.IsHead := by
  have hs := h.member.sound fun _ _ => yields_readMethodPart pool _ _
  have hc := isPlain_common hs
  simp only [forall_mem_append] at hc
  simp only [MethodRead.head, methodEvents, tail_cons, forall_mem_append]
  refine ⟨⟨⟨⟨⟨fun e he => (hc.1.1 e he).isHead, fun e he => (hc.1.2 e he).isHead⟩, ?_⟩, ?_⟩, ?_⟩, ?_⟩
  · rintro _ he
    obtain ⟨p, -, rfl⟩ := mem_map.1 he
    exact ⟨rfl, rfl, forall_mem_nil _⟩
  · exact fun e he => (hc.2 e he).isHead
  · intro e he
    obtain ⟨p, hp, he⟩ := mem_flatMap.1 he
    split at he
    next l =>
      obtain ⟨h1, h2, h3⟩ := hs _ hp e he
      exact ⟨by simp [ClassEvent.isInMethod, h1], h2, by simp [h3]⟩
    next => simp at he
  · rintro _ he
    obtain ⟨p, -, rfl⟩ := mem_map.1 he
    exact ⟨rfl, rfl, forall_mem_nil _⟩

def ClassEvent.IsOfClass (e : ClassEvent) : Prop := e.isInClass = true ∧ ∀ a ∈ e.typeAnnotations, a.IsExternal

theorem exists_classEvents (header : ClassHeader) (h : ∀ p ∈ ps, p.Sound) :
    ∃ rest, classEvents header ps = .header header :: rest ∧ ∀ e ∈ rest, e.IsOfClass := by
  have hc := isPlain_common h
  simp only [forall_mem_append] at hc
  have hplain : ∀ e : ClassEvent, e.IsPlain → e.IsOfClass := fun e he => ⟨by simp [ClassEvent.isInClass, he.1], he.2⟩
  -- Lists of one kind of event.
  have hmap : ∀ {α : Type} (f : α → ClassEvent), (∀ a, (f a).IsOfClass) → ∀ l : List α, ∀ e ∈ l.map f, e.IsOfClass := by
    intro α f hf l e he
    obtain ⟨a, -, rfl⟩ := mem_map.1 he
    exact hf a
  have hfilter : ∀ f : Part → Option ClassEvent, (∀ p e, f p = some e → e.IsOfClass) →
      ∀ e ∈ ps.filterMap f, e.IsOfClass := by
    intro f hf e he
    obtain ⟨p, -, hp⟩ := mem_filterMap.1 he
    exact hf p e hp
  refine ⟨_, rfl, ?_⟩
  simp only [forall_mem_append]
  refine ⟨⟨⟨⟨⟨⟨⟨⟨⟨⟨?_, ?_⟩, ?_⟩, ?_⟩, ?_⟩, ?_⟩, ?_⟩, ?_⟩, ?_⟩, ?_⟩, ?_⟩
  · rw [sourceEvents]
    split
    · exact forall_mem_singleton.2 ⟨rfl, forall_mem_nil _⟩
    · simp
  · exact hfilter _ fun p e hp => by split at hp <;> cases hp; exact ⟨rfl, forall_mem_nil _⟩
  · exact hfilter _ fun p e hp => by split at hp <;> cases hp; exact ⟨rfl, forall_mem_nil _⟩
  · exact hfilter _ fun p e hp => by split at hp <;> cases hp; exact ⟨rfl, forall_mem_nil _⟩
  · exact hmap _ (fun _ => ⟨rfl, forall_mem_nil _⟩) _
  · exact hmap _ (fun _ => ⟨rfl, forall_mem_nil _⟩) _
  · exact hmap _ (fun _ => ⟨rfl, forall_mem_nil _⟩) _
  · exact fun e he => hplain e (hc.1.2 e he)
  · exact fun e he => hplain e (hc.2 e he)
  · intro e he
    obtain ⟨l, hl, rfl⟩ := mem_map.1 he
    obtain ⟨p, hp, hpl⟩ := mem_filterMap.1 (mem_of_getLast? (Option.mem_toList.1 hl))
    split at hpl <;> cases hpl
    refine ⟨rfl, fun a ha => ?_⟩
    obtain ⟨c, hc, ha⟩ := mem_flatMap.1 ha
    obtain ⟨b, hb, rfl⟩ := mem_map.1 ha
    exact h _ hp c hc b hb
  · exact hmap _ (fun _ => ⟨rfl, forall_mem_nil _⟩) _

/-! ## Classes -/

/-- Reads what stands before the members. -/
def decodePreamble : Decode (PoolView × ClassHeader) := do
  let version ← decodeVersion
  let pool ← PoolView.decode
  let header ← decodeHeader version pool
  return (pool, header)

/-- The first pass over the members, which skips them. -/
structure FirstPass (start : Input) where
  pool : PoolView
  header : ClassHeader
  fields : Input
  methods : Input
  after : Input
  decodes : decodePreamble start = .ok ((pool, header), fields)
  skips : skipMembers fields = .ok ((), methods)
  skipsMethods : skipMembers methods = .ok ((), after)

/-- A class file as it is read: after the first pass and the attributes, the members are read with the bootstrap
methods of the class. -/
structure ClassRead (bytes : Bytes) where
  first : FirstPass { rest := bytes }
  table : List (Handle × List UInt16)
  events : List ClassEvent
  fields : List MemberRead
  methods : List (MethodRead { first.pool with methods := table })
  middle : Input
  stop : Input
  isOfClass : ∀ e ∈ events, e.IsOfClass
  fieldsAt : ListAt (MemberRead.At { first.pool with methods := table }
    (fieldPart { first.pool with methods := table })) first.fields fields middle
  methodsAt : ListAt MethodRead.At middle methods stop

namespace ClassRead

variable {bytes : Bytes}

def view (c : ClassRead bytes) : PoolView := { c.first.pool with methods := c.table }

def elements (c : ClassRead bytes) : Elements :=
  ⟨c.first.header, c.events, c.fields.map MemberRead.field, c.methods.map fun m => (m.header, m.inner)⟩

end ClassRead

/-- **A class file brings about the events of what is read of it.** -/
theorem gives_readClass : Gives readClass { rest := bytes } fun _ _ es =>
    ∃ c : ClassRead bytes, es = c.elements.flatten ∧ ∃ inner, Ran (readMembers c.view) c.first.fields () c.stop inner ∧
      es = .header c.first.header :: (c.events ++ inner ++ [.done]) := by
  refine .take_bind fun version i₁ h₁ => .take_bind fun pool i₂ h₂ => .take_bind fun header members h₃ => ?_
  refine .get_bind fun _ => .take_bind fun _ middle h₄ => .take_bind fun _ after h₅ => ?_
  have hp : decodePreamble { rest := bytes } = .ok ((pool, header), members) := by
    simp only [decodePreamble, decode_bind_eq_ok]
    exact ⟨version, i₁, h₁, pool, i₂, h₂, header, members, h₃, rfl⟩
  refine (Yields.readAttributes (yields_readClassPart pool header.name) after).bind fun ps k es hps => ?_
  obtain ⟨rfl, hps, -⟩ := hps
  obtain ⟨rest, hr, hrest⟩ := exists_classEvents header hps
  have hmembers : ∀ V k, Gives (tracedInside (.inClass header.name) (readAt members (readMembers V))) k fun _ _ es =>
      ∃ (fields : List MemberRead) (methods : List (MethodRead V)) (middle stop : Input),
        ListAt (MemberRead.At V (fieldPart V)) members fields middle ∧ ListAt MethodRead.At middle methods stop ∧
        es = fields.flatMap (fun m => .field m.field.1 :: m.field.2)
          ++ methods.flatMap (fun m => .method m.header :: m.inner) ∧ Ran (readMembers V) members () stop es := by
    refine fun V k => .inside (.readAt ((gives_readMembers V members).ran.mono fun _ j es h => ?_))
    obtain ⟨⟨fields, methods, middle, hf, hm, he⟩, hr⟩ := h
    exact ⟨fields, methods, middle, j, hf, hm, he, hr⟩
  refine .warned ?_
  refine .bind (Q := fun _ _ es => es = .header header :: rest) (.emitEvents hr) fun _ k es he => ?_
  subst he
  refine (hmembers _ k).bind fun _ k inner hi => ?_
  obtain ⟨fields, methods, mid, stop, hf, hm, he, hran⟩ := hi
  let first : FirstPass { rest := bytes } := ⟨pool, header, members, middle, after, hp, h₄, h₅⟩
  refine .emit ⟨⟨first, _, rest, fields, methods, mid, stop, hrest, hf, hm⟩, ?_, inner, hran, by simp [first]⟩
  simp [Elements.flatten, ClassRead.elements, he, flatMap_map, first]

theorem gives_readEvents (h : readEvents bytes = .ok events)
    {P : Unit → Input → List ClassEvent → Prop} (hP : Gives readClass { rest := bytes } P) :
    ∃ i, P () i events := by
  rw [readEvents, readTrace, traceOf] at h
  cases hr : readClass ({ rest := bytes }, []) with
  | error f s =>
    rw [hr] at h
    cases h
  | ok a s =>
    obtain ⟨i, items⟩ := s
    rw [hr] at h
    obtain ⟨new, hn, hp⟩ := hP [] a _ hr
    obtain rfl : items = new := by simpa using hn
    cases h
    exact ⟨i, hp⟩

theorem exists_classRead (h : readEvents bytes = .ok events) :
    ∃ c : ClassRead bytes, events = c.elements.flatten ∧ ∃ inner, Ran (readMembers c.view) c.first.fields () c.stop inner ∧
      events = .header c.first.header :: (c.events ++ inner ++ [.done]) := by
  obtain ⟨-, hc⟩ := gives_readEvents h gives_readClass
  exact hc

namespace ClassRead

variable (c : ClassRead bytes)

theorem isPlain : ∀ f ∈ c.elements.fields, ∀ e ∈ f.2, e.IsPlain := by
  intro f hf
  obtain ⟨m, hm, rfl⟩ := mem_map.1 hf
  obtain ⟨_, _, h⟩ := c.fieldsAt.exists_at m hm
  exact h.isPlain

theorem exists_method {m : MethodHeader × List ClassEvent} (hm : m ∈ c.elements.methods) :
    ∃ head code, m.2 = head ++ code.map .code ∧ (∀ e ∈ head, e.IsHead) ∧ IsRead code := by
  obtain ⟨r, hr, rfl⟩ := mem_map.1 hm
  obtain ⟨_, _, h⟩ := c.methodsAt.exists_at r hr
  exact ⟨r.head, r.codeEvents, rfl, h.isHead, h.isRead⟩

theorem proper : c.elements.Proper := by
  refine ⟨fun e he => (c.isOfClass e he).1, fun f hf e he => (c.isPlain f hf e he).1, fun m hm e he => ?_⟩
  obtain ⟨head, code, heq, hh, -⟩ := c.exists_method hm
  rw [heq] at he
  rcases mem_append.1 he with he | he
  · exact (hh e he).1
  · obtain ⟨c, -, rfl⟩ := mem_map.1 he
    rfl

theorem isExternal_of_mem {e : ClassEvent} (he : e ∈ c.elements.flatten) : ∀ a ∈ e.typeAnnotations, a.IsExternal := by
  simp only [Elements.flatten, mem_cons, mem_append, mem_flatMap, not_mem_nil, or_false] at he
  rcases he with rfl | ((he | ⟨f, hf, rfl | he⟩) | ⟨m, hm, rfl | he⟩) | rfl
  · exact forall_mem_nil _
  · exact (c.isOfClass e he).2
  · exact forall_mem_nil _
  · exact (c.isPlain f hf e he).2
  · exact forall_mem_nil _
  · obtain ⟨head, code, heq, hh, -⟩ := c.exists_method hm
    rw [heq] at he
    rcases mem_append.1 he with he | he
    · exact (hh e he).2.2
    · obtain ⟨c, -, rfl⟩ := mem_map.1 he
      exact forall_mem_nil _
  · exact forall_mem_nil _

end ClassRead

theorem labels_eq_nil_of_isExternal {e : ClassEvent} (hc : e.isCode = false) (h : ∀ a ∈ e.typeAnnotations, a.IsExternal) :
    e.labels = [] := by
  have hl : ∀ a : TypeAnnotation Label, a.IsExternal → a.target.labels = [] := fun a ha => TypeTarget.labels_eq_nil ha.2 ha.1
  cases e with
  | annotateType visible a => exact hl a (h a (mem_singleton_self a))
  | record components =>
    refine flatMap_eq_nil_iff.2 fun c hc => flatMap_eq_nil_iff.2 fun a ha => hl _ (h _ ?_)
    exact mem_flatMap.2 ⟨c, hc, mem_map_of_mem ha⟩
  | code => cases hc
  | _ => rfl

/-- **The events of a class file are those of its elements. Labels are only in code, and code was brought about by what was
read of it.** -/
theorem exists_elements (h : readEvents bytes = .ok events) :
    ∃ s : Elements, events = s.flatten ∧ s.Proper ∧ s.LabelsInCode ∧ ∀ m ∈ s.methods, IsRead (Element.code m.2) := by
  obtain ⟨c, hflat, -⟩ := exists_classRead h
  have hout : ∀ e ∈ c.elements.flatten, e.isCode = false → e.labels = [] := fun e he hc =>
    labels_eq_nil_of_isExternal hc (c.isExternal_of_mem he)
  have hcode : ∀ e : ClassEvent, e.level = .element ∨ e.level = .preamble → e.isCode = false := by
    intro e he
    cases e <;> first | rfl | (rcases he with he | he <;> cases he)
  refine ⟨c.elements, hflat, c.proper, ⟨fun e he => ?_, fun f hf e he => ?_, fun m hm e he => ?_⟩, fun m hm => ?_⟩
  · refine hout e (by simp [Elements.flatten, he]) (hcode e ?_)
    simpa [ClassEvent.isInClass] using c.proper.events e he
  · refine hout e ?_ (hcode e (.inl (c.proper.fields f hf e he)))
    simp only [Elements.flatten, mem_cons, mem_append, mem_flatMap]
    exact .inr (.inl (.inl (.inr ⟨f, hf, .inr he⟩)))
  · refine hout e ?_
    simp only [Elements.flatten, mem_cons, mem_append, mem_flatMap]
    exact .inr (.inl (.inr ⟨m, hm, .inr he⟩))
  · obtain ⟨head, code, heq, hh, hc⟩ := c.exists_method hm
    rwa [heq, code_append fun e he => (hh e he).2.1]

end ClassDoc
