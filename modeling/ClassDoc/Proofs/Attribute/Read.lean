/-
  Reading with events, and attributes that are read back.
-/
import ClassDoc.Proofs.Pool.Puts
import ClassDoc.Code.Read
namespace ClassDoc

open List

variable {α β : Type} {part : String → Nat → ReadM (Option α)} {V : PoolView} {attributes : List Attribute}
  {Ps : List (α → Prop)} (l : List α) (c : Bool)

/-! ## Reading -/

/-- The computation takes exactly these bytes, brings about these events, and has a result with the property `P`. -/
def Consumes (x : ReadM α) (bytes : Bytes) (events : List ClassEvent) (P : α → Prop) : Prop :=
  ∀ rest n items, ∃ a new, x (⟨bytes ++ rest, n⟩, items) = .ok a (⟨rest, n + bytes.length⟩, new ++ items) ∧
    P a ∧ new.reverse.filterMap TraceItem.event? = events

namespace Consumes

variable {x : ReadM α} {bytes bytes' : Bytes} {events events' : List ClassEvent} {P : α → Prop} {Q : β → Prop}
  {f : α → ReadM β} {a : α} {d : Decode α}

theorem pure (h : P a) : Consumes (Pure.pure a) [] [] P := fun _ _ _ => ⟨a, [], rfl, h, rfl⟩

theorem bind (hx : Consumes x bytes events P) (hf : ∀ a, P a → Consumes (f a) bytes' events' Q) :
    Consumes (x >>= f) (bytes ++ bytes') (events ++ events') Q := by
  intro rest n items
  obtain ⟨a, new, hx, ha, he⟩ := hx (bytes' ++ rest) n items
  obtain ⟨b, new', hf, hb, he'⟩ := hf a ha rest (n + bytes.length) (new ++ items)
  refine ⟨b, new' ++ new, ?_, hb, by simp [← he, ← he']⟩
  rw [run_bind_eq_ok]
  refine ⟨a, _, by rw [append_assoc]; exact hx, ?_⟩
  rw [hf, append_assoc, length_append, Nat.add_assoc]

theorem bind_nil (hx : Consumes x bytes events P) (hf : ∀ a, P a → Consumes (f a) [] events' Q) :
    Consumes (x >>= f) bytes (events ++ events') Q :=
  append_nil bytes ▸ hx.bind hf

theorem mono {P' : α → Prop} (h : Consumes x bytes events P) (hP : ∀ a, P a → P' a) : Consumes x bytes events P' := by
  intro rest n items
  obtain ⟨a, new, hx, ha, he⟩ := h rest n items
  exact ⟨a, new, hx, hP a ha, he⟩

theorem take (h : Decodes d bytes a) : Consumes (ClassDoc.take d) bytes [] (· = a) := by
  intro rest n items
  refine ⟨a, [], ?_, rfl, rfl⟩
  rw [ClassDoc.take, h]
  rfl

theorem take_bind (h : Decodes d bytes a)
    (hf : Consumes (f a) bytes' events Q) : Consumes (ClassDoc.take d >>= f) (bytes ++ bytes') events Q :=
  (take h).bind fun _ ha => ha ▸ hf

theorem take_map {f : α → β} (h : Decodes d bytes a) (hf : Q (f a)) :
    Consumes (ClassDoc.take d >>= fun x => Pure.pure (f x)) bytes [] Q :=
  (take h).bind_nil fun _ ha => pure (ha ▸ hf)

theorem lift_bind {y : Except Fault α} (h : y = .ok a) (hf : Consumes (f a) bytes events Q) :
    Consumes (liftM y >>= f) bytes events Q := by
  subst h
  exact hf

theorem get_bind {f : Input × List TraceItem → ReadM β}
    (h : ∀ rest n items, Consumes (f (⟨bytes ++ rest, n⟩, items)) bytes events Q) :
    Consumes (get >>= f) bytes events Q := by
  intro rest n items
  exact h rest n items rest n items

theorem emitAll (f : α → ClassEvent) (xs : List α) :
    Consumes (xs.forM fun x => emit (f x)) [] (xs.map f) fun _ => True := by
  intro rest n items
  suffices h : ∀ s items, (xs.forM fun x => emit (f x) : ReadM PUnit) (s, items)
      = .ok () (s, (xs.map fun x => TraceItem.event [] (f x)).reverse ++ items) by
    exact ⟨(), _, h _ _, trivial, by simp [filterMap_map, Function.comp_def, TraceItem.event?]⟩
  intro s items
  induction xs generalizing items with
  | nil => rfl
  | cons x xs ih =>
    have hc : ((x :: xs).forM fun x => emit (f x) : ReadM PUnit) (s, items)
        = (xs.forM fun x => emit (f x) : ReadM PUnit) (s, .event [] (f x) :: items) := rfl
    rw [hc, ih]
    simp

theorem emitEvents (events : List ClassEvent) : Consumes (events.forM emit) [] events fun _ => True := by
  have h := emitAll id events
  rwa [map_id] at h

theorem inside (p : Place) (h : Consumes x bytes events P) : Consumes (tracedInside p x) bytes events P := by
  intro rest n items
  obtain ⟨a, new, hx, ha, he⟩ := h rest n []
  refine ⟨a, new.map (TraceItem.inside p), ?_, ha, ?_⟩
  · rw [tracedInside, hx, append_nil]
  · rw [← he, ← map_reverse, filterMap_map]
    congr 1
    funext i
    cases i <;> rfl

end Consumes

/-! ## Attributes -/

/-- The attribute is read as a part that satisfies `P`. -/
def Attribute.ReadAs (V : PoolView) (part : String → Nat → ReadM (Option α)) (attr : Attribute) (P : α → Prop) :
    Prop :=
  ∃ name, V.utf8 attr.name = .ok name ∧
    Consumes (part name attr.body.length) attr.body [] fun o => ∃ a, o = some a ∧ P a

theorem consumes_attribute {attr : Attribute} {P : α → Prop}
    {bytes bytes' : Bytes} {events : List ClassEvent} {f : Option α → ReadM β} {Q : β → Prop}
    (h : attr.ReadAs V part P) (hb : attr.encode = .ok bytes)
    (hf : ∀ a, P a → Consumes (f (some a)) bytes' events Q) :
    Consumes (do
      let name ← take (decodeIndex V.utf8)
      let length ← take Decode.u4
      let o ← part name length.toNat
      f o) (bytes ++ bytes') events Q := by
  obtain ⟨name, hn, hr⟩ := h
  obtain ⟨length, hl, hb⟩ := bind_eq_ok.1 hb
  obtain rfl := Except.ok.inj hb
  obtain ⟨hd, hlen⟩ := count4_eq_ok hl
  simp only [append_assoc]
  refine .take_bind (decodes_index hn) (.take_bind hd ?_)
  rw [hlen]
  refine hr.bind ?_
  rintro o ⟨a, rfl, ha⟩
  exact hf a ha

theorem consumes_attributesFrom {parts : List Bytes} (h : Forall₂ (Attribute.ReadAs V part) attributes Ps)
    (hp : Forall₂ (fun attr b => Attribute.encode attr = .ok b) attributes parts) (found : List α) :
    Consumes (readAttributesFrom V part attributes.length found) parts.flatten [] fun as =>
      ∃ new, as = found.reverse ++ new ∧ Forall₂ (fun (P : α → Prop) a => P a) Ps new := by
  induction h generalizing parts found with
  | nil =>
    cases hp
    exact .pure ⟨[], by simp, .nil⟩
  | @cons attr P attributes Ps hr _ ih =>
    obtain _ | ⟨hb, hp⟩ := hp
    refine consumes_attribute hr hb fun a ha => ?_
    refine (ih hp (a :: found)).mono ?_
    rintro as ⟨new, rfl, hn⟩
    exact ⟨a :: new, by simp, .cons ha hn⟩

/-- **Attributes are read one after the other.** -/
theorem consumes_attributes {bytes : Bytes} (h : Forall₂ (Attribute.ReadAs V part) attributes Ps)
    (hb : Attribute.encodeAll attributes = .ok bytes) :
    Consumes (readAttributes V part) bytes [] fun as => Forall₂ (fun (P : α → Prop) a => P a) Ps as := by
  obtain ⟨count, hc, hb⟩ := bind_eq_ok.1 hb
  obtain ⟨parts, hp, hb⟩ := bind_eq_ok.1 hb
  obtain rfl := Except.ok.inj hb
  obtain ⟨hd, hcount⟩ := count2_eq_ok hc
  refine .take_bind hd ?_
  rw [hcount]
  refine (consumes_attributesFrom h (mapM_eq_ok_iff.1 hp) []).mono ?_
  rintro as ⟨new, rfl, hn⟩
  exact hn

/-! ## Parts that may be left out -/

theorem flatMap_ite (a : α) (f : α → List β) : (if c then [a] else []).flatMap f = if c then f a else [] := by
  cases c <;> simp

theorem filterMap_ite (a : α) (f : α → Option β) :
    (if c then [a] else []).filterMap f = if c then (f a).toList else [] := by
  cases c <;> cases h : f a <;> simp [h]

theorem any_ite (a : α) (f : α → Bool) : (if c then [a] else []).any f = (c && f a) := by
  cases c <;> simp

theorem ite_isEmpty (f : List α → List β) (h : f [] = []) : (if (!l.isEmpty) = true then f l else []) = f l := by
  cases l with
  | nil => exact h.symm
  | cons => rfl

theorem getD_getLast?_ite : (if !l.isEmpty then [l] else []).getLast?.getD [] = l := by
  cases l <;> rfl

theorem getLast?_toList (o : Option α) : o.toList.getLast? = o := by
  cases o <;> rfl

theorem flatMap_nil_const : l.flatMap (fun _ => ([] : List β)) = [] := by
  simp

/-! ## Making attributes -/

section
variable {full : Bool} {name : String} {body : PoolM Bytes} {P : Pool → PoolView → α → Prop}

theorem putsIn_make (part : PoolView → String → Nat → ReadM (Option α))
    (h : PutsIn full body fun pool V bytes => Consumes (part V name bytes.length) bytes [] fun o =>
      ∃ a, o = some a ∧ P pool V a) :
    PutsIn full (Attribute.make name body) fun pool V attr => attr.ReadAs V (part V) (P pool V) :=
  PutsIn.bind (puts_utf8 name) fun _ => (h.inPlace _).map fun _ _ _ hr hn => ⟨name, hn, hr⟩

theorem putsIn_makeIf (part : PoolView → String → Nat → ReadM (Option α))
    (condition : Bool) (h : condition = true → PutsIn full body fun pool V bytes =>
      Consumes (part V name bytes.length) bytes [] fun o => ∃ a, o = some a ∧ P pool V a) :
    PutsIn full (Attribute.makeIf condition name body) fun pool V attributes =>
      Forall₂ (Attribute.ReadAs V (part V)) attributes (if condition then [P pool V] else []) := by
  cases condition with
  | true => exact (putsIn_make part (h rfl)).map fun _ _ _ ha => .cons ha .nil
  | false => exact .pure fun _ _ => .nil

theorem putsIn_makeFor {γ : Type} (part : PoolView → String → Nat → ReadM (Option α))
    {P : γ → Pool → PoolView → α → Prop} {body : γ → PoolM Bytes} (value : Option γ)
    (h : ∀ c, value = some c → PutsIn full (body c) fun pool V bytes =>
      Consumes (part V name bytes.length) bytes [] fun o => ∃ a, o = some a ∧ P c pool V a) :
    PutsIn full (Attribute.makeFor value name body) fun pool V attributes =>
      Forall₂ (Attribute.ReadAs V (part V)) attributes (value.toList.map fun c => P c pool V) := by
  cases value with
  | some c => exact (putsIn_make part (h c rfl)).map fun _ _ _ ha => .cons ha .nil
  | none => exact .pure fun _ _ => .nil

/-! ## Attributes that are read as certain parts -/

def exactly (ps : List α) : List (α → Prop) := ps.map fun p a => a = p

@[simp] theorem exactly_append (ps qs : List α) : exactly (ps ++ qs) = exactly ps ++ exactly qs := map_append

theorem eq_of_exactly {ps as : List α} (h : Forall₂ (fun (P : α → Prop) a => P a) (exactly ps) as) : as = ps := by
  rw [exactly, forall₂_map_left_iff] at h
  have he : Forall₂ (· = ·) as ps := h.flip
  rwa [forall₂_eq_eq_eq] at he

/-- The attributes are read as the parts. -/
abbrev Attribute.AllReadAs (V : PoolView) (part : String → Nat → ReadM (Option α)) (attributes : List Attribute)
    (ps : List α) : Prop := Forall₂ (Attribute.ReadAs V part) attributes (exactly ps)

theorem Attribute.AllReadAs.append {V : PoolView} {part : String → Nat → ReadM (Option α)} {as bs : List Attribute}
    {ps qs : List α} (ha : AllReadAs V part as ps) (hb : AllReadAs V part bs qs) :
    AllReadAs V part (as ++ bs) (ps ++ qs) := by
  rw [AllReadAs, exactly_append]
  exact rel_append ha hb

/-- The attributes that are put are read back as the parts. -/
abbrev PutsAs (full : Bool) (part : PoolView → String → Nat → ReadM (Option α)) (x : PoolM (List Attribute))
    (ps : List α) : Prop := Puts full x fun V attributes => Attribute.AllReadAs V (part V) attributes ps

variable (part : PoolView → String → Nat → ReadM (Option α))

theorem puts_makeIf (condition : Bool) (p : α) (h : condition = true → Puts full body fun V bytes =>
      Consumes (part V name bytes.length) bytes [] (· = some p)) :
    PutsAs full part (Attribute.makeIf condition name body) (if condition then [p] else []) := by
  refine (putsIn_makeIf part (P := fun _ _ a => a = p) condition fun hc => (h hc).mono fun V bytes hr => ?_).mono ?_
  · exact hr.mono fun o ho => ⟨p, ho, rfl⟩
  · intro _ V attributes ha
    cases condition <;> exact ha

theorem puts_makeIf_of {F : Prop} (condition : Bool) (h : Puts full body fun _ _ => F) :
    Puts full (Attribute.makeIf condition name body) fun _ _ => condition = true → F := by
  cases condition with
  | true => exact Puts.map (Puts.bind (puts_utf8 name) fun _ => (h.inPlace _).map fun _ _ _ hf _ => hf) fun _ _ hf _ => hf
  | false => exact .pure fun _ h => nomatch h

theorem puts_makeFor {γ : Type} {body : γ → PoolM Bytes} (value : Option γ) (p : γ → α)
    (h : ∀ c, value = some c → Puts full (body c) fun V bytes =>
      Consumes (part V name bytes.length) bytes [] (· = some (p c))) :
    PutsAs full part (Attribute.makeFor value name body) (value.toList.map p) := by
  refine (putsIn_makeFor part (P := fun c _ _ a => a = p c) value fun c hc =>
    (h c hc).mono fun V bytes hr => ?_).mono ?_
  · exact hr.mono fun o ho => ⟨p c, ho, rfl⟩
  · intro _ V attributes ha
    cases value <;> exact ha

section
variable {γ : Type} {d : PoolView → Decode γ} {f : γ → α}
  (hp : ∀ V length, part V name length = take (d V) >>= fun c => pure (some (f c)))
include hp

theorem puts_makeIf_take {c : γ} (condition : Bool) (h : Puts full body fun V bytes => Decodes (d V) bytes c) :
    PutsAs full part (Attribute.makeIf condition name body) (if condition then [f c] else []) := by
  refine puts_makeIf part condition (f c) fun _ => h.mono fun V bytes hb => ?_
  rw [hp]
  exact .take_map hb rfl

theorem puts_makeFor_take {body : γ → PoolM Bytes} (value : Option γ)
    (h : ∀ c, Puts full (body c) fun V bytes => Decodes (d V) bytes c) :
    PutsAs full part (Attribute.makeFor value name body) (value.toList.map f) := by
  refine puts_makeFor part value f fun c _ => (h c).mono fun V bytes hb => ?_
  rw [hp]
  exact .take_map hb rfl

end

end

end ClassDoc
