/-
  Layouts: items stand one behind the other, and every short jump fits.
-/
import ClassDoc.Proofs.Pool.Constant
import ClassDoc.Proofs.Pool.Repeat
import ClassDoc.Code.Layout
namespace ClassDoc

open List

/-! ## Instructions that can be read back -/

/-- The constants of an instruction can be read back. -/
def Insn.loads {L : Type} : Insn L → Bool
  | invokeDynamic _ _ bootstrap arguments =>
    Handle.isKind bootstrap.kind && Constant.allLoad PoolView.maxDepth arguments
  | ldc constant => constant.loads (PoolView.maxDepth + 1)
  | _ => true

def Item.loads : Item → Bool
  | insn i => i.loads
  | _ => true

theorem Pool.keeps_of_le {p q : Pool} (hp : p.Tables) (hq : q.Tables) (h : p ≤ q) : p.Keeps q where
  entry e i he := (hq.index e i).2 (getElem?_of_isPrefix h.1 ((hp.index e i).1 he))
  method m i hm := by
    rw [hp.methodIndex, getElem?_map, Option.map_eq_some_iff] at hm
    obtain ⟨m', hm, he⟩ := hm
    rw [hq.methodIndex, getElem?_map, getElem?_of_isPrefix h.2 hm, Option.map_some, he]

theorem Grows.putsIn {α : Type} {full : Bool} {x : PoolM α} {Q : Pool → α → Prop} {R : Pool → PoolView → α → Prop}
    (hx : Grows x Q) (h : PutsIn full x R) : PutsIn full x fun P _ a => Q P a := by
  intro p a q hp ha
  have s := h hp ha
  exact { s with seen := fun P _ hP hle _ => (hx ha).2 P (Pool.keeps_of_le s.wf.tables hP.tables hle) }

theorem repeats_size (pc : Nat) (wide : Bool) (i : Insn Label) : Repeats (i.size pc wide) := by
  unfold Insn.size
  split
  case h_9 c =>
    split
    · exact .pure _
    · exact (Repeats.constant c).bind fun _ => .pure _
  all_goals exact .pure _

/-! ## Items one behind the other -/

def Placed.HasSize (P : Pool) (x : Placed) (n : Nat) : Prop :=
  match x.item with
  | .insn i => i.size x.offset x.wide P = .ok n P
  | _ => n = 0

/-- The items stand one after the other. -/
def Laid (P : Pool) : (start : Nat) → List Placed → (stop : Nat) → Prop
  | start, [], stop => start = stop
  | start, x :: xs, stop => x.offset = start ∧ ∃ n, x.HasSize P n ∧ Laid P (start + n) xs stop

variable {layout : Layout} {P : Pool} {ws xs : List (Item × Bool)} {x : Placed}

theorem Laid.le {start stop : Nat} {xs : List Placed} (h : Laid P start xs stop) : start ≤ stop := by
  induction xs generalizing start with
  | nil => exact le_of_eq h
  | cons x xs ih =>
    obtain ⟨-, n, -, h⟩ := h
    exact (Nat.le_add_right _ _).trans (ih h)

theorem Laid.offset_le {start stop : Nat} {xs : List Placed} (h : Laid P start xs stop)
    (hx : x ∈ xs) : start ≤ x.offset ∧ x.offset ≤ stop := by
  induction xs generalizing start with
  | nil => simp at hx
  | cons y xs ih =>
    obtain ⟨ho, n, -, h⟩ := h
    rcases mem_cons.1 hx with rfl | hx
    · have := h.le
      omega
    · have := ih h hx
      omega

section
variable {P : Pool} {start stop : Nat} {xs ys : List Placed} {i : Insn Label}

theorem Laid.append (h : Laid P start (xs ++ ys) stop) : ∃ middle, Laid P start xs middle ∧ Laid P middle ys stop := by
  induction xs generalizing start with
  | nil => exact ⟨start, rfl, h⟩
  | cons x xs ih =>
    obtain ⟨ho, n, hn, h⟩ := h
    obtain ⟨middle, hx, hy⟩ := ih h
    exact ⟨middle, ⟨ho, n, hn, hx⟩, hy⟩

theorem Placed.hasSize_zero (hx : ∀ i, x.item ≠ .insn i) {n : Nat} (h : x.HasSize P n) : n = 0 := by
  obtain ⟨item, wide, offset⟩ := x
  cases item with
  | insn i => exact absurd rfl (hx i)
  | label | frame => exact h

theorem Laid.eq_of_not_insn (h : Laid P start xs stop) (hx : ∀ x ∈ xs, ∀ i, x.item ≠ .insn i) : start = stop := by
  induction xs generalizing start with
  | nil => exact h
  | cons x xs ih =>
    obtain ⟨-, n, hn, h⟩ := h
    obtain rfl := Placed.hasSize_zero (hx x (by simp)) hn
    exact ih h fun y hy => hx y (by simp [hy])

theorem Insn.size_pos {pc n : Nat} {wide : Bool} {p q : Pool} (h : i.size pc wide p = .ok n q) : 0 < n := by
  cases i with
  | ldc c =>
    rw [Insn.size] at h
    cases hc : c.isWide with
    | true =>
      rw [hc] at h
      cases h
      decide
    | false =>
      rw [hc] at h
      obtain ⟨index, r, -, h⟩ := run_bind_eq_ok.1 h
      cases h
      split <;> decide
  | tableSwitch | lookupSwitch =>
    cases h
    omega
  | _ =>
    cases h
    repeat' split
    all_goals decide

theorem Placed.hasSize_pos (hx : x.item = .insn i) {n : Nat} (h : x.HasSize P n) : 0 < n := by
  rw [Placed.HasSize, hx] at h
  exact Insn.size_pos h

end

def Layout.Defines (layout : Layout) (l : Label) : Prop := ∃ n, layout.labels[l]? = some n

theorem Layout.defines_of_mem
    (h : ∀ l n, layout.labels[l]? = some n ↔ ∃ x ∈ layout.items, x.item = .label l ∧ x.offset = n) {l : Label}
    (hl : .label l ∈ layout.items.map Placed.item) : layout.Defines l := by
  obtain ⟨x, hx, he⟩ := mem_map.1 hl
  exact ⟨x.offset, (h l _).2 ⟨x, hx, he, rfl⟩⟩

/-- The items stand one after the other, and the labels are where they are defined. -/
structure Layout.Placement (P : Pool) (items : List (Item × Bool)) (layout : Layout) : Prop where
  items_eq : layout.items.map (fun x => (x.item, x.wide)) = items
  laid : Laid P 0 layout.items layout.length
  label_iff : ∀ l n, layout.labels[l]? = some n ↔ ∃ x ∈ layout.items, x.item = .label l ∧ x.offset = n

theorem Layout.Placement.map_item (hp : layout.Placement P xs) : layout.items.map Placed.item = xs.map Prod.fst := by
  simp [← hp.items_eq, Function.comp_def]

theorem grows_place (start : Layout) (x : Item × Bool) :
    Grows (start.place x) fun P layout => layout.items = ⟨x.1, x.2, start.length⟩ :: start.items ∧
      (∃ n, Placed.HasSize P ⟨x.1, x.2, start.length⟩ n ∧ layout.length = start.length + n) ∧
      ∀ l n, layout.labels[l]? = some n ↔ start.labels[l]? = some n ∨ (x.1 = .label l ∧ start.length = n) := by
  obtain ⟨item, wide⟩ := x
  cases item with
  | label l =>
    unfold Layout.place
    simp only
    split
    next => exact .throw _
    next hc =>
      refine .pure fun P => ⟨rfl, ⟨0, rfl, rfl⟩, fun l' n => ?_⟩
      have hn : start.labels[l]? = none := by simpa using hc
      rw [Std.HashMap.getElem?_insert]
      split
      next e =>
        obtain rfl := eq_of_beq e
        simp [hn]
      next e => simp [show l ≠ l' by simpa using e]
  | frame f => exact .pure fun P => ⟨rfl, ⟨0, rfl, rfl⟩, by simp⟩
  | insn i => exact (repeats_size start.length wide i).map fun P n hn => ⟨rfl, ⟨n, hn, rfl⟩, by simp⟩

theorem grows_foldl (xs : List (Item × Bool)) (start : Layout) :
    Grows (xs.foldlM Layout.place start) fun P layout => ∃ new, layout.items = new.reverse ++ start.items ∧
      new.map (fun x => (x.item, x.wide)) = xs ∧ Laid P start.length new layout.length ∧
      ∀ l n, layout.labels[l]? = some n ↔ start.labels[l]? = some n ∨ ∃ x ∈ new, x.item = .label l ∧ x.offset = n := by
  induction xs generalizing start with
  | nil => exact .pure fun P => ⟨[], by simp, rfl, rfl, by simp⟩
  | cons x xs ih =>
    refine (grows_place start x).bind fun next => (ih next).mono ?_
    rintro P layout ⟨new, hi, hm, hlaid, hlabel⟩ ⟨hi', ⟨n, hn, hlen⟩, hlabel'⟩
    refine ⟨⟨x.1, x.2, start.length⟩ :: new, by simp [hi, hi'], by simp [hm], ⟨rfl, n, hn, hlen ▸ hlaid⟩, fun l k => ?_⟩
    rw [hlabel, hlabel', exists_mem_cons_iff, or_assoc]

theorem grows_round (xs : List (Item × Bool)) : Grows (Layout.round xs) fun P layout => layout.Placement P xs := by
  refine (grows_foldl xs {}).map ?_
  rintro P layout ⟨new, hi, hm, hlaid, hlabel⟩
  have hr : layout.items.reverse = new := by simp [hi]
  exact ⟨by simp [hr, hm], by simpa [hr] using hlaid, by simpa [hr] using hlabel⟩

/-! ## Widening -/

/-- No jump has to be made wide. -/
def Layout.Settled (layout : Layout) : Prop :=
  ∀ x ∈ layout.items, ∀ op target, x.item = .insn (.jump op target) → x.wide = false →
    ∃ d, layout.distance x.offset target = .ok d ∧ Layout.isShort d = true

theorem Layout.short_of_mustBeWide {op : Opcode} {target : Label}
    (h : layout.mustBeWide x = .ok false) (hx : x.item = .insn (.jump op target)) :
    ∃ d, layout.distance x.offset target = .ok d ∧ isShort d = true := by
  rw [mustBeWide, hx] at h
  simp only at h
  split at h
  next => exact nomatch h
  next =>
    obtain ⟨d, hd, h⟩ := bind_eq_ok.1 h
    exact ⟨d, hd, by simpa using h⟩

def Item.isShortJump (x : Item × Bool) : Bool :=
  match x.1 with
  | .insn (.jump _ _) => !x.2
  | _ => false

theorem Layout.mustBeWide_eq_ok {b : Bool} (h : layout.mustBeWide x = .ok b) :
    b = x.wide ∨ b = true ∧ Item.isShortJump (x.item, x.wide) = true := by
  unfold mustBeWide at h
  split at h
  next op target hi =>
    split at h
    next hx => exact .inl (by simpa [hx] using h.symm)
    next hx =>
      cases b with
      | false => exact .inl (by simpa using hx)
      | true => exact .inr ⟨rfl, by simpa [Item.isShortJump, hi] using hx⟩
  next => exact .inl (Except.ok.inj h).symm

theorem Layout.countP_widen {xs : List Placed} {ws : List (Item × Bool)}
    (h : Forall₂ (fun x w => w.1 = x.item ∧ layout.mustBeWide x = .ok w.2) xs ws) :
    ws.countP Item.isShortJump ≤ (xs.map fun x => (x.item, x.wide)).countP Item.isShortJump ∧
      (xs.map Placed.wide ≠ ws.map Prod.snd →
        ws.countP Item.isShortJump < (xs.map fun x => (x.item, x.wide)).countP Item.isShortJump) := by
  induction h with
  | nil => simp
  | @cons x w xs ws hw _ ih =>
    obtain ⟨item, b⟩ := w
    obtain ⟨rfl, hb⟩ : item = x.item ∧ layout.mustBeWide x = .ok b := hw
    simp only [map_cons, countP_cons]
    rcases mustBeWide_eq_ok hb with rfl | ⟨rfl, hs⟩
    · exact ⟨Nat.add_le_add_right ih.1 _, fun hne => Nat.add_lt_add_right (ih.2 fun he => hne (by rw [he])) _⟩
    · have hw : Item.isShortJump (x.item, true) = false := by
        unfold Item.isShortJump
        split <;> rfl
      rw [hs, hw]
      simp only [if_true, Bool.false_eq_true, if_false]
      omega

theorem Layout.widen_eq_ok (h : layout.widen = .ok ws) :
    Forall₂ (fun x w => w.1 = x.item ∧ layout.mustBeWide x = .ok w.2) layout.items ws := by
  refine (mapM_eq_ok_iff.1 h).imp fun x w hw => ?_
  obtain ⟨b, hb, hw⟩ := bind_eq_ok.1 hw
  obtain rfl := Except.ok.inj hw
  exact ⟨rfl, hb⟩

theorem Layout.settled_of_isSettled (h : layout.widen = .ok ws) (hs : layout.isSettled ws = true) : layout.Settled := by
  have hw := widen_eq_ok h
  have he : layout.items.map Placed.wide = ws.map Prod.snd := eq_of_beq hs
  rw [← forall₂_eq_eq_eq, forall₂_map_left_iff, forall₂_map_right_iff] at he
  have hb : ∀ x ∈ layout.items, layout.mustBeWide x = .ok x.wide := by
    intro x hx
    obtain ⟨i, hi, rfl⟩ := getElem_of_mem hx
    have h₁ := (forall₂_iff_get.1 hw).2 i hi (hw.length_eq ▸ hi)
    have h₂ := (forall₂_iff_get.1 he).2 i hi (he.length_eq ▸ hi)
    simp only [get_eq_getElem] at h₁ h₂
    rw [h₁.2, h₂]
  intro x hx op target hi hwide
  exact short_of_mustBeWide (hwide ▸ hb x hx) hi

theorem Layout.Placement.fst_widen
    (hp : layout.Placement P xs) (h : layout.widen = .ok ws) : ws.map Prod.fst = xs.map Prod.fst := by
  rw [← hp.map_item, ← forall₂_eq_eq_eq, forall₂_map_left_iff, forall₂_map_right_iff]
  exact (widen_eq_ok h).flip.imp fun _ _ hw => hw.1

theorem Layout.Placement.countP_widen (hp : layout.Placement P xs) (h : layout.widen = .ok ws)
    (hs : layout.isSettled ws = false) : ws.countP Item.isShortJump < xs.countP Item.isShortJump := by
  have := (Layout.countP_widen (widen_eq_ok h)).2 (by simpa [isSettled] using hs)
  rwa [hp.items_eq] at this

theorem Layout.Placement.isSettled (hp : layout.Placement P xs) (h : xs.countP Item.isShortJump = 0) :
    ∃ ws, layout.widen = .ok ws ∧ layout.isSettled ws = true := by
  have hb : ∀ x ∈ layout.items, layout.mustBeWide x = .ok x.wide := by
    intro x hx
    have hn : Item.isShortJump (x.item, x.wide) = false := by
      rw [← hp.items_eq, countP_eq_zero] at h
      simpa using h _ (mem_map_of_mem hx)
    unfold mustBeWide
    split
    next hi =>
      have hw : x.wide = true := by simpa [Item.isShortJump, hi] using hn
      rw [if_pos hw, hw]
    next => rfl
  refine ⟨layout.items.map fun x => (x.item, x.wide), ?_, by simp [Layout.isSettled, Function.comp_def]⟩
  rw [widen, mapM_eq_ok_iff, forall₂_map_right_iff, forall₂_same]
  intro x hx
  rw [hb x hx]
  rfl

namespace Layout

/-- The loop that makes jumps wide ends after so many rounds, with a layout or a fault. -/
inductive EndsAfter : (rounds : Nat) → List (Item × Bool) → Pool → EStateM.Result Fault Pool Layout → Prop
  | unplaced {xs : List (Item × Bool)} {p q : Pool} {f : Fault} (h : round xs p = .error f q) :
    EndsAfter 1 xs p (.error f q)
  | unreached {xs : List (Item × Bool)} {p q : Pool} {layout : Layout} {f : Fault} (h : round xs p = .ok layout q)
      (hw : layout.widen = .error f) : EndsAfter 1 xs p (.error f q)
  | settled {xs ws : List (Item × Bool)} {p q : Pool} {layout : Layout} (h : round xs p = .ok layout q)
      (hw : layout.widen = .ok ws) (hs : layout.isSettled ws = true) : EndsAfter 1 xs p (.ok layout q)
  | again {n : Nat} {xs ws : List (Item × Bool)} {p q : Pool} {layout : Layout} {result : EStateM.Result Fault Pool Layout}
      (h : round xs p = .ok layout q) (hw : layout.widen = .ok ws) (hs : layout.isSettled ws = false)
      (next : EndsAfter n ws q result) : EndsAfter (n + 1) xs p result

theorem exists_endsAfter {fuel : Nat} (p : Pool) (hf : xs.countP Item.isShortJump ≤ fuel) :
    ∃ n ≤ xs.countP Item.isShortJump + 1, EndsAfter n xs p (settle fuel xs p) := by
  induction fuel generalizing xs p with
  | zero =>
    refine ⟨1, Nat.le_add_left _ _, ?_⟩
    rw [settle]
    cases hr : round xs p with
    | error f q => exact .unplaced hr
    | ok layout q =>
      obtain ⟨ws, hw, hs⟩ := ((grows_round xs hr).2 q (.refl q)).isSettled (Nat.le_zero.1 hf)
      exact .settled hr hw hs
  | succ fuel ih =>
    have hsettle : settle (fuel + 1) xs p = EStateM.bind (round xs) (fun layout => EStateM.bind (liftM layout.widen)
      fun ws => if layout.isSettled ws then pure layout else settle fuel ws) p := rfl
    rw [hsettle, EStateM.bind]
    cases hr : round xs p with
    | error f q => exact ⟨1, Nat.le_add_left _ _, .unplaced hr⟩
    | ok layout q =>
      have hp := (grows_round xs hr).2 q (.refl q)
      dsimp only
      cases hw : layout.widen with
      | error f => exact ⟨1, Nat.le_add_left _ _, .unreached hr hw⟩
      | ok ws =>
        show ∃ n ≤ _, EndsAfter n xs p ((if layout.isSettled ws then pure layout else settle fuel ws) q)
        cases hs : layout.isSettled ws with
        | true => exact ⟨1, Nat.le_add_left _ _, .settled hr hw hs⟩
        | false =>
          have hlt := hp.countP_widen hw hs
          have hle : ws.countP Item.isShortJump ≤ fuel := by omega
          obtain ⟨n, hn, he⟩ := ih q hle
          exact ⟨n + 1, by omega, .again hr hw hs he⟩

theorem EndsAfter.fits {n : Nat} {p q : Pool} (h : EndsAfter n xs p (.ok layout q)) : p.GrowsTo q ∧ layout.Settled ∧
    ∀ P, q.Keeps P → ∃ ys, layout.Placement P ys ∧ ys.map Prod.fst = xs.map Prod.fst := by
  generalize hresult : EStateM.Result.ok layout q = result at h
  induction h with
  | unplaced | unreached => cases hresult
  | settled h hw hs =>
    cases hresult
    obtain ⟨hk, hp⟩ := grows_round _ h
    exact ⟨hk, settled_of_isSettled hw hs, fun P hP => ⟨_, hp P hP, rfl⟩⟩
  | again h hw hs _ ih =>
    obtain ⟨hk, hp⟩ := grows_round _ h
    obtain ⟨hk', hsettled, hys⟩ := ih hresult
    rw [(hp _ (.refl _)).fst_widen hw] at hys
    exact ⟨hk.trans hk', hsettled, hys⟩

end Layout

/-- **A layout places the items one behind the other so that every jump that is not wide reaches its target.** -/
structure Layout.Fits (P : Pool) (items : List Item) (layout : Layout) : Prop where
  items_eq : layout.items.map Placed.item = items
  laid : Laid P 0 layout.items layout.length
  label_iff : ∀ l n, layout.labels[l]? = some n ↔ ∃ x ∈ layout.items, x.item = .label l ∧ x.offset = n
  settled : layout.Settled
  pos : 0 < layout.length
  lt : layout.length < 0x10000

theorem grows_layout (items : List Item) : Grows (Layout.of items) fun P layout => layout.Fits P items := by
  have hsettle : Grows (Layout.settle items.length (items.map fun item => (item, false))) fun P layout => layout.Settled ∧
      ∃ ys, layout.Placement P ys ∧ ys.map Prod.fst = items := by
    intro p layout q h
    have hle : (items.map fun item => (item, false)).countP Item.isShortJump ≤ items.length :=
      countP_le_length.trans_eq (length_map _)
    obtain ⟨n, -, he⟩ := Layout.exists_endsAfter p hle
    obtain ⟨hk, hs, hys⟩ := (h ▸ he).fits
    simp only [map_map, Function.comp_def, map_id'] at hys
    exact ⟨hk, fun P hP => ⟨hs, hys P hP⟩⟩
  refine hsettle.bind fun layout => ?_
  split
  next => exact .throw _
  next hn =>
    refine .pure ?_
    rintro P ⟨hs, ys, hp, hfst⟩
    exact ⟨hp.map_item.trans hfst, hp.laid, hp.label_iff, hs, by omega, by omega⟩

/-! ## Layouts of code that can be read back -/

theorem putsIn_round (hl : ∀ x ∈ xs, x.1.loads = true) :
    PutsIn true (Layout.round xs) fun P _ layout => layout.Placement P xs := by
  have hsize : ∀ (pc : Nat) (wide : Bool) {i : Insn Label}, i.loads = true →
      PutsIn true (i.size pc wide) fun _ _ _ => True := by
    intro pc wide i h
    unfold Insn.size
    split
    case h_9 c =>
      split
      · exact .pure fun _ _ => trivial
      · exact Puts.map (puts_constant c h) fun _ _ _ => trivial
    all_goals exact .pure fun _ _ => trivial
  have hfold : ∀ (ys : List (Item × Bool)) (start : Layout), (∀ y ∈ ys, y.1.loads = true) →
      PutsIn true (ys.foldlM Layout.place start) fun _ _ _ => True := by
    intro ys
    induction ys with
    | nil => exact fun start _ => .pure fun _ _ => trivial
    | cons y ys ih =>
      intro start hy
      obtain ⟨hy, hys⟩ := forall_mem_cons.1 hy
      refine PutsIn.bind (Q := fun _ _ _ => True) ?_ fun next => (ih next hys).mono fun _ _ _ _ _ => trivial
      obtain ⟨item, wide⟩ := y
      cases item with
      | label l =>
        unfold Layout.place
        simp only
        split
        · exact .throw _
        · exact .pure fun _ _ => trivial
      | frame f => exact .pure fun _ _ => trivial
      | insn i => exact (hsize _ _ hy).map fun _ _ _ _ => trivial
  exact (grows_round xs).putsIn (PutsIn.map (S := fun _ _ _ => True) (hfold xs {} hl) fun _ _ _ _ => trivial)

theorem putsIn_layout (items : List Item) (hl : ∀ x ∈ items, x.loads = true) :
    PutsIn true (Layout.of items) fun P _ layout => layout.Fits P items := by
  have hsettle : ∀ (fuel : Nat) (ws : List (Item × Bool)), (∀ w ∈ ws, w.1.loads = true) →
      PutsIn true (Layout.settle fuel ws) fun _ _ _ => True := by
    intro fuel
    induction fuel with
    | zero => exact fun ws hw => (putsIn_round hw).mono fun _ _ _ _ => trivial
    | succ fuel ih =>
      intro ws hw
      refine (putsIn_round hw).bind_exists fun layout hp => ?_
      obtain ⟨P, -, hp⟩ := hp
      refine (PutsIn.lift _).bind_exists fun next hn => ?_
      obtain ⟨-, -, hn⟩ := hn
      split
      · exact .pure fun _ _ _ _ => trivial
      · refine (ih next fun w hm => ?_).mono fun _ _ _ _ _ _ => trivial
        have : w.1 ∈ ws.map Prod.fst := hp.fst_widen hn ▸ mem_map_of_mem hm
        obtain ⟨x, hx, he⟩ := mem_map.1 this
        exact he ▸ hw x hx
  refine (grows_layout items).putsIn (PutsIn.bind (S := fun _ _ _ => True) (hsettle items.length _ ?_) fun layout => ?_)
  · simpa using hl
  · split
    · exact .throw _
    · exact .pure fun _ _ _ => trivial

end ClassDoc
