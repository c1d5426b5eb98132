/-
  The largest depth of the stack.

  Control enters the code at the first item and at the exception handlers. From an item it goes on to the next one, and
  from an instruction also to its targets.
-/
import ClassDoc.Proofs.Labels.Code
namespace ClassDoc

open List

/-! ## Ways through the code -/

def Item.passes : Item → Bool
  | insn i => !Opcode.endsBlock i.opcode
  | _ => true

section
variable (items : List Item) (handlers : List Label) (D : Nat → Int)

/-- Where the run of a code can start: at its first item and at its handlers. -/
inductive Entered : Nat → Prop where
  | first (h : 0 < items.length) : Entered 0
  | handler {l : Label} {i : Nat} (hl : l ∈ handlers) (hi : items[i]? = some (.label l)) : Entered i

/-- The item that can be run after the item at `i`. -/
inductive Leads (i : Nat) : Nat → Prop where
  | next {item : Item} (hi : items[i]? = some item) (hp : item.passes = true) (hn : i + 1 < items.length) : Leads i (i + 1)
  | target {insn : Insn Label} {l : Label} {j : Nat} (hi : items[i]? = some (.insn insn)) (hl : l ∈ insn.targets)
      (hj : items[j]? = some (.label l)) : Leads i j

/-- What a run can come to. -/
inductive Reached : Nat → Prop where
  | entry {i : Nat} (h : Entered items handlers i) : Reached i
  | step {i j : Nat} (h : Reached i) (hj : Leads items i j) : Reached j

/-- The depth at each item that control reaches fits the ways through the code. A subroutine leaves the stack as it was
before the jump to it. -/
structure StackDepths : Prop where
  first : 0 < items.length → D 0 = 0
  handler : ∀ l ∈ handlers, ∀ i, items[i]? = some (.label l) → D i = 1
  pass : ∀ i item, Reached items handlers i → items[i]? = some item → item.insn? = none → i + 1 < items.length →
    D (i + 1) = D i
  enough : ∀ i insn e, Reached items handlers i → items[i]? = some (.insn insn) → insn.stackEffect = .ok e → 0 ≤ D i + e
  target : ∀ i insn e, Reached items handlers i → items[i]? = some (.insn insn) → insn.stackEffect = .ok e →
    ∀ l ∈ insn.targets, ∀ j, items[j]? = some (.label l) → D j = D i + e
  next : ∀ i insn e, Reached items handlers i → items[i]? = some (.insn insn) → insn.stackEffect = .ok e →
    Opcode.endsBlock insn.opcode = false → i + 1 < items.length →
    D (i + 1) = if insn.opcode == Opcode.jsr then D i else D i + e

/-- A depth of the stack around the instruction at `i`. -/
def IsDepthAt (i : Nat) (d : Int) : Prop :=
  ∃ insn e, items[i]? = some (.insn insn) ∧ insn.stackEffect = .ok e ∧ (d = D i ∨ d = D i + e)

/-- The depths before and after the instructions that control reaches, and zero. -/
def reachedDepths : Set Int := insert 0 {d | ∃ i, Reached items handlers i ∧ IsDepthAt items D i d}

/-- Each label that an instruction or handler refers to is defined once. -/
def RefersOnce : Prop :=
  ∀ l, (l ∈ handlers ∨ ∃ insn, .insn insn ∈ items ∧ l ∈ insn.targets) → ∃! i : Nat, items[i]? = some (.label l)

end

variable {items : List Item} {handlers : List Label} {D : Nat → Int}

theorem lt_length_of_getElem? {item : Item} {i : Nat} (h : items[i]? = some item) : i < items.length :=
  (List.getElem?_eq_some_iff.1 h).1

theorem Entered.lt_length {i : Nat} (h : Entered items handlers i) : i < items.length := by
  cases h with
  | first h => exact h
  | handler hl hi => exact lt_length_of_getElem? hi

theorem Leads.lt_length {i j : Nat} (h : Leads items i j) : j < items.length := by
  cases h with
  | next hi hp hn => exact hn
  | target hi hl hj => exact lt_length_of_getElem? hj

/-! ## Places of labels -/

theorem getElem?_of_labelPlaces {l : Label} {n : Nat} (h : (labelPlaces items)[l]? = some n) :
    items[n]? = some (.label l) := by
  have hplaces : ∀ (l : Label) (n : Nat), (labelPlaces items)[l]? = some n → items[n]? = some (.label l) := by
    refine List.foldlRecOn (motive := fun places : Std.HashMap Label Nat =>
      ∀ (l : Label) (n : Nat), places[l]? = some n → items[n]? = some (.label l)) _ _ ?_ ?_
    · intro l n h
      simp at h
    · rintro places ih ⟨item, i⟩ hi l n h
      cases item with
      | label l' =>
        rw [Std.HashMap.getElem?_insert] at h
        split at h
        next e =>
          obtain rfl := eq_of_beq e
          obtain rfl := Option.some.inj h
          simpa using (mem_zipIdx_iff_getElem?.1 hi)
        next => exact ih l n h
      | frame | insn => exact ih l n h
  exact hplaces l n h

theorem placeOf_eq_ok {l : Label} {j : Nat} (h : ∃! i : Nat, items[i]? = some (.label l))
    (hj : items[j]? = some (.label l)) :
    placeOf (labelPlaces items) l = .ok j := by
  obtain ⟨n, hn⟩ := LabelSafe.getElem?_labelPlaces (mem_of_getElem? hj)
  rw [placeOf, hn, h.unique hj (getElem?_of_labelPlaces hn)]

theorem mapM_placeOf {ls : List Label} (h : ∀ l ∈ ls, ∃! i : Nat, items[i]? = some (.label l)) :
    ∃ js, ls.mapM (placeOf (labelPlaces items)) = .ok js ∧ Forall₂ (fun l j => items[j]? = some (.label l)) ls js := by
  obtain ⟨js, hjs⟩ := forall₂_exists fun l hl => (h l hl).exists
  refine ⟨js, mapM_eq_ok_iff.2 ?_, hjs⟩
  exact ((forall₂_and_left _ _).2 ⟨h, hjs⟩).imp fun l j hj => placeOf_eq_ok hj.1 hj.2

/-! ## Following the ways -/

section
variable (items handlers D)

/-- Between two visits: all that was visited is reached, what follows it is visited or pending, and `max` is the
greatest depth so far. -/
structure Explored (pending : List (Nat × Int)) (visited : Array Bool) (max : Int) : Prop where
  size : visited.size = items.length
  start : ∀ x ∈ pending, x.1 < items.length → Reached items handlers x.1 ∧ D x.1 = x.2
  reached : ∀ i, visited[i]? = some true → Reached items handlers i
  entry : ∀ i, Entered items handlers i → visited[i]? = some true ∨ ∃ d, (i, d) ∈ pending
  step : ∀ i j, visited[i]? = some true → Leads items i j → visited[j]? = some true ∨ ∃ d, (j, d) ∈ pending
  greatest : IsGreatest (insert 0 {d | ∃ i, visited[i]? = some true ∧ IsDepthAt items D i d}) max

end

namespace Explored

variable {visited : Array Bool} {max : Int} {work pending : List (Nat × Int)} {i : Nat} {d : Int}

theorem drop (h : Explored items handlers D ((i, d) :: work) visited max) (hi : visited[i]?.getD true = true) :
    Explored items handlers D work visited max := by
  have hknown : ∀ j < items.length, (visited[j]? = some true ∨ ∃ d', (j, d') ∈ (i, d) :: work) →
      visited[j]? = some true ∨ ∃ d', (j, d') ∈ work := by
    rintro j hj (hv | ⟨d', hd⟩)
    · exact .inl hv
    · rcases mem_cons.1 hd with he | hd
      · cases he
        have hs : i < visited.size := h.size ▸ hj
        rw [Array.getElem?_eq_getElem hs, Option.getD_some] at hi
        exact .inl (by rw [Array.getElem?_eq_getElem hs, hi])
      · exact .inr ⟨d', hd⟩
  exact { h with
    start := fun x hx => h.start x (by simp [hx])
    entry := fun j hj => hknown j hj.lt_length (h.entry j hj)
    step := fun j k hj hk => hknown k hk.lt_length (h.step j k hj hk) }

theorem greatest_reachedDepths (h : Explored items handlers D [] visited max) :
    IsGreatest (reachedDepths items handlers D) max := by
  have hv : ∀ i, Reached items handlers i → visited[i]? = some true := by
    intro i hi
    induction hi with
    | entry hi => simpa using h.entry _ hi
    | step _ hj ih => simpa using h.step _ _ ih hj
  have hg := h.greatest
  have he : {d | ∃ i, visited[i]? = some true ∧ IsDepthAt items D i d} =
      {d | ∃ i, Reached items handlers i ∧ IsDepthAt items D i d} := by
    ext d
    exact exists_congr fun i => and_congr_left fun _ => ⟨h.reached i, hv i⟩
  rwa [he] at hg

theorem of_not_visited (h : Explored items handlers D ((i, d) :: work) visited max) (hi : ¬ visited[i]?.getD true = true) :
    visited[i]? = some false ∧ i < items.length ∧ Reached items handlers i ∧ D i = d := by
  have hf : visited[i]? = some false := by
    cases hv : visited[i]? with
    | none => simp [hv] at hi
    | some b => simpa [hv] using hi
  have hlt : i < items.length := h.size ▸ (Array.getElem?_eq_some_iff.1 hf).1
  exact ⟨hf, hlt, h.start (i, d) (by simp) hlt⟩

theorem getElem?_visit {j : Nat} (hi : i < visited.size) :
    (visited.setIfInBounds i true)[j]? = some true ↔ j = i ∨ visited[j]? = some true := by
  rw [Array.getElem?_setIfInBounds]
  split
  next e => simp [← e, hi]
  next e => simp [Ne.symm e]

theorem visit (h : Explored items handlers D ((i, d) :: work) visited max) (hi : ¬ visited[i]?.getD true = true)
    {max' : Int} (hwork : work ⊆ pending)
    (hstart : ∀ x ∈ pending, x ∈ work ∨ (x.1 < items.length → Leads items i x.1 ∧ D x.1 = x.2))
    (hleads : ∀ j, Leads items i j → ∃ d', (j, d') ∈ pending)
    (hmax : IsGreatest ({max} ∪ {d' | IsDepthAt items D i d'}) max') :
    Explored items handlers D pending (visited.setIfInBounds i true) max' := by
  obtain ⟨hf, hlt, hr, -⟩ := h.of_not_visited hi
  have hs : i < visited.size := h.size ▸ hlt
  have hknown : ∀ j, (visited[j]? = some true ∨ ∃ d', (j, d') ∈ (i, d) :: work) →
      (visited.setIfInBounds i true)[j]? = some true ∨ ∃ d', (j, d') ∈ pending := by
    rintro j (hv | ⟨d', hd⟩)
    · exact .inl ((getElem?_visit hs).2 (.inr hv))
    · rcases mem_cons.1 hd with he | hd
      · cases he
        exact .inl ((getElem?_visit hs).2 (.inl rfl))
      · exact .inr ⟨d', hwork hd⟩
  refine ⟨by simp [h.size], fun x hx hl => ?_, fun j hj => ?_, fun j hj => hknown j (h.entry j hj), fun j k hj hk => ?_, ?_⟩
  · rcases hstart x hx with hx | hx
    · exact h.start x (by simp [hx]) hl
    · exact ⟨.step hr (hx hl).1, (hx hl).2⟩
  · rcases (getElem?_visit hs).1 hj with rfl | hj
    · exact hr
    · exact h.reached j hj
  · rcases (getElem?_visit hs).1 hj with rfl | hj
    · exact .inr (hleads k hk)
    · exact hknown k (h.step j k hj hk)
  · have hle : max ≤ max' := hmax.2 (.inl rfl)
    refine ⟨?_, ?_⟩
    · rcases hmax.1 with rfl | hd
      · refine Set.insert_subset_insert ?_ h.greatest.1
        rintro d' ⟨j, hj, hd⟩
        exact ⟨j, (getElem?_visit hs).2 (.inr hj), hd⟩
      · exact .inr ⟨i, (getElem?_visit hs).2 (.inl rfl), hd⟩
    · rintro d' (rfl | ⟨j, hj, hd⟩)
      · exact (h.greatest.2 (.inl rfl)).trans hle
      · rcases (getElem?_visit hs).1 hj with rfl | hj
        · exact hmax.2 (.inr hd)
        · exact (h.greatest.2 (.inr ⟨j, hj, hd⟩)).trans hle

theorem pass (hD : StackDepths items handlers D) (h : Explored items handlers D ((i, d) :: work) visited max)
    (hi : ¬ visited[i]?.getD true = true) {item : Item} (hitem : items[i]? = some item) (hn : item.insn? = none) :
    Explored items handlers D ((i + 1, d) :: work) (visited.setIfInBounds i true) max := by
  obtain ⟨-, -, hr, hd⟩ := h.of_not_visited hi
  have hp : item.passes = true := by
    cases item with
    | insn => cases hn
    | label | frame => rfl
  refine h.visit hi (fun x hx => by simp [hx]) (fun x hx => ?_) (fun j hj => ?_) ⟨.inl rfl, ?_⟩
  · rcases mem_cons.1 hx with rfl | hx
    · exact .inr fun hl => ⟨.next hitem hp hl, by rw [hD.pass i item hr hitem hn hl, hd]⟩
    · exact .inl hx
  · cases hj with
    | next => exact ⟨d, by simp⟩
    | target hi =>
      rw [hitem] at hi
      cases hi
      cases hn
  · rintro d' (rfl | ⟨insn, e, hi, -⟩)
    · exact le_rfl
    · rw [hitem] at hi
      cases hi
      cases hn

theorem run (hD : StackDepths items handlers D) (h : Explored items handlers D ((i, d) :: work) visited max)
    (hi : ¬ visited[i]?.getD true = true) {insn : Insn Label} (hitem : items[i]? = some (.insn insn)) {e : Int}
    (he : insn.stackEffect = .ok e) {js : List Nat}
    (hjs : Forall₂ (fun l j => items[j]? = some (.label l)) insn.targets js)
    (honce : ∀ l ∈ insn.targets, ∃! j : Nat, items[j]? = some (.label l)) {next : Nat × Int}
    (hnext : next = if Opcode.endsBlock insn.opcode then (items.length, 0)
      else (i + 1, if insn.opcode == Opcode.jsr then d else d + e)) :
    Explored items handlers D (next :: js.foldl (fun work j => (j, d + e) :: work) work) (visited.setIfInBounds i true)
      (Max.max max (Max.max d (d + e))) := by
  obtain ⟨-, -, hr, hd⟩ := h.of_not_visited hi
  have hmem : ∀ x, x ∈ next :: js.foldl (fun work j => (j, d + e) :: work) work ↔
      x = next ∨ (∃ j ∈ js, (j, d + e) = x) ∨ x ∈ work := by
    simp
  refine h.visit hi (fun x hx => (hmem x).2 (.inr (.inr hx))) (fun x hx => ?_) (fun j hj => ?_) ⟨?_, ?_⟩
  · rcases (hmem x).1 hx with rfl | ⟨j, hj, rfl⟩ | hx
    · refine .inr fun hl => ?_
      subst hnext
      split at hl
      next => exact absurd hl (lt_irrefl _)
      next hb =>
        rw [if_neg hb]
        have hp : Opcode.endsBlock insn.opcode = false := by simpa using hb
        refine ⟨.next hitem (by simp [Item.passes, hp]) hl, ?_⟩
        rw [hD.next i insn e hr hitem he hp hl, hd]
    · obtain ⟨l, hl, hlj⟩ := exists_of_mem_right hjs hj
      exact .inr fun _ => ⟨.target hitem hl hlj, by rw [hD.target i insn e hr hitem he l hl j hlj, hd]⟩
    · exact .inl hx
  · cases hj with
    | next hi hp hl =>
      rw [hitem] at hi
      cases hi
      have hb : Opcode.endsBlock insn.opcode = false := by simpa [Item.passes] using hp
      rw [hb, if_neg (by simp)] at hnext
      exact ⟨_, (hmem _).2 (.inl hnext.symm)⟩
    | target hi hl hj =>
      rw [hitem] at hi
      cases hi
      obtain ⟨k, hk, hlk⟩ := exists_of_mem_right hjs.flip hl
      rw [(honce _ hl).unique hj hlk]
      exact ⟨_, (hmem _).2 (.inr (.inl ⟨k, hk, rfl⟩))⟩
  · rcases max_choice max (Max.max d (d + e)) with hm | hm
    · exact .inl hm
    · refine .inr ⟨insn, e, hitem, he, ?_⟩
      rw [hm, hd]
      exact max_choice d (d + e)
  · rintro d' (rfl | ⟨insn', e', hi', he', hd'⟩)
    · exact le_max_left _ _
    · rw [hitem] at hi'
      cases hi'
      rw [he] at he'
      cases he'
      rw [hd] at hd'
      rcases hd' with rfl | rfl
      · exact (le_max_left _ _).trans (le_max_right _ _)
      · exact (le_max_right _ _).trans (le_max_right _ _)

end Explored

/-! ## Steps -/

def Item.ways : Item → Nat
  | insn i => i.targets.length + 1
  | label _ | frame _ => 1

def unexplored (items : List Item) (visited : Array Bool) : Nat :=
  ∑ i ∈ Finset.range items.length with visited[i]? = some false, items[i]?.elim 0 Item.ways

theorem unexplored_visit {visited : Array Bool} {i : Nat} {item : Item} (hi : visited[i]? = some false)
    (hitem : items[i]? = some item) :
    item.ways + unexplored items (visited.setIfInBounds i true) = unexplored items visited := by
  have hmem : i ∈ (Finset.range items.length).filter (visited[·]? = some false) := by
    simp [hi, lt_length_of_getElem? hitem]
  have herase : (Finset.range items.length).filter ((visited.setIfInBounds i true)[·]? = some false) =
      ((Finset.range items.length).filter (visited[·]? = some false)).erase i := by
    ext j
    simp only [Finset.mem_filter, Finset.mem_erase, Array.getElem?_setIfInBounds]
    split
    next e => simp [← e]
    next e => simp [Ne.symm e]
  rw [unexplored, unexplored, herase, ← Finset.add_sum_erase _ _ hmem, hitem]
  rfl

theorem sum_ways (items : List Item) : (items.map Item.ways).sum =
    items.length + ((items.filterMap Item.insn?).map fun insn => insn.targets.length).sum := by
  induction items with
  | nil => rfl
  | cons item items ih =>
    cases item <;> simp only [map_cons, sum_cons, filterMap_cons, Item.insn?, Item.ways, ih, length_cons]
      <;> omega

theorem unexplored_start (items : List Item) (handlers : List Label) :
    unexplored items (Array.replicate items.length false) + handlers.length + 2 ≤ pathSteps items handlers := by
  have hall : unexplored items (Array.replicate items.length false) = (items.map Item.ways).sum := by
    rw [unexplored, Finset.filter_true_of_mem, Finset.sum_range, ← Fin.sum_univ_fun_getElem]
    · exact Finset.sum_congr rfl fun i _ => by simp
    · intro i hi
      rw [Array.getElem?_replicate, if_pos (Finset.mem_range.1 hi)]
  rw [hall, sum_ways, pathSteps, sum_eq_foldl]
  omega

/-- **All ways are followed to their end.** The result is the largest depth of an instruction that control reaches. -/
theorem deepest_eq_ok (honce : RefersOnce items handlers)
    (heffect : ∀ insn, .insn insn ∈ items → ∃ e, insn.stackEffect = .ok e) (hD : StackDepths items handlers D)
    {fuel : Nat} {index : Nat} {depth : Int} {work : List (Nat × Int)} {visited : Array Bool} {max : Int}
    (h : Explored items handlers D ((index, depth) :: work) visited max)
    (hfuel : unexplored items visited + work.length + 1 ≤ fuel) :
    ∃ m, deepest items.toArray (labelPlaces items) fuel index depth work visited max = .ok m ∧
      IsGreatest (reachedDepths items handlers D) m := by
  induction fuel generalizing index depth work visited max with
  | zero => omega
  | succ fuel ih =>
    unfold deepest
    split
    next hv =>
      have h := h.drop hv
      cases work with
      | nil => exact ⟨max, rfl, h.greatest_reachedDepths⟩
      | cons start work =>
        rw [length_cons] at hfuel
        exact ih h (by omega)
    next hv =>
      obtain ⟨hf, hlt, hr, hd⟩ := h.of_not_visited hv
      have hitem := getElem?_eq_getElem hlt
      have hcost := unexplored_visit hf hitem
      rw [getElem?_toArray, hitem]
      cases hi : items[index] with
      | label | frame =>
        rw [hi] at hitem hcost
        rw [Item.ways] at hcost
        exact ih (h.pass hD hv hitem rfl) (by omega)
      | insn insn =>
        rw [hi] at hitem hcost
        rw [Item.ways] at hcost
        have hmem := mem_of_getElem? hitem
        have hlabels : ∀ l ∈ insn.targets, ∃! j : Nat, items[j]? = some (.label l) :=
          fun l hl => honce l (.inr ⟨insn, hmem, hl⟩)
        obtain ⟨e, he⟩ := heffect insn hmem
        obtain ⟨js, hjs, hplaces⟩ := mapM_placeOf hlabels
        have hn : ¬ depth + e < 0 := not_lt.2 (hd ▸ hD.enough index insn e hr hitem he)
        have hwork : (js.foldl (fun work j => (j, depth + e) :: work) work).length = insn.targets.length + work.length := by
          rw [foldl_flip_cons_eq_append, length_append, length_reverse, length_map,
            hplaces.length_eq]
        simp only [he, ok_bind, if_neg hn, hjs]
        split
        next hb =>
          exact ih (h.run hD hv hitem he hplaces hlabels (by rw [if_pos hb]; rfl)) (by omega)
        next hb =>
          exact ih (h.run hD hv hitem he hplaces hlabels (by rw [if_neg hb])) (by omega)

theorem explored_start {js : List Nat} (hD : StackDepths items handlers D)
    (honce : ∀ l ∈ handlers, ∃! j : Nat, items[j]? = some (.label l))
    (hjs : Forall₂ (fun l j => items[j]? = some (.label l)) handlers js) :
    Explored items handlers D ((items.length, 0) :: js.foldl (fun work j => (j, 1) :: work) [(0, 0)])
      (Array.replicate items.length false) 0 := by
  have hmem : ∀ x : Nat × Int, x ∈ (items.length, 0) :: js.foldl (fun work j => (j, 1) :: work) [(0, 0)] ↔
      x = (items.length, 0) ∨ (∃ j ∈ js, (j, 1) = x) ∨ x = (0, 0) := by
    simp
  have hv : ∀ i : Nat, (Array.replicate items.length false)[i]? ≠ some true := by
    intro i
    rw [Array.getElem?_replicate]
    split <;> simp
  refine ⟨by simp, fun x hx hl => ?_, fun i hi => absurd hi (hv i), fun i hi => .inr ?_, fun i _ hi => absurd hi (hv i), ?_⟩
  · rcases (hmem x).1 hx with rfl | ⟨j, hj, rfl⟩ | rfl
    · exact absurd hl (lt_irrefl _)
    · obtain ⟨l, hl, hlj⟩ := exists_of_mem_right hjs hj
      exact ⟨.entry (.handler hl hlj), hD.handler l hl j hlj⟩
    · exact ⟨.entry (.first hl), hD.first hl⟩
  · cases hi with
    | first => exact ⟨0, (hmem _).2 (.inr (.inr rfl))⟩
    | handler hl hi =>
      obtain ⟨j, hj, hlj⟩ := exists_of_mem_right hjs.flip hl
      rw [(honce _ hl).unique hi hlj]
      exact ⟨1, (hmem _).2 (.inr (.inl ⟨j, hj, rfl⟩))⟩
  · refine ⟨.inl rfl, ?_⟩
    rintro d (rfl | ⟨i, hi, -⟩)
    · exact le_rfl
    · exact absurd hi (hv i)

/-- **The largest depth of the stack is found exactly.** If one depth for each item fits all ways through the code, then
the result is the largest depth before or after an instruction that control reaches, or zero; it fails only if that does
not fit into 16 bits. -/
theorem maxStack_eq_greatest (honce : RefersOnce items handlers)
    (heffect : ∀ insn, .insn insn ∈ items → ∃ e, insn.stackEffect = .ok e) (hD : StackDepths items handlers D) :
    ∃ m : Nat, IsGreatest (reachedDepths items handlers D) m ∧
      maxStack items handlers = if m < 0x10000 then .ok (UInt16.ofNat m) else .error (.write (.maxStack m)) := by
  have hlabels : ∀ l ∈ handlers, ∃! j : Nat, items[j]? = some (.label l) := fun l hl => honce l (.inl hl)
  obtain ⟨js, hjs, hplaces⟩ := mapM_placeOf hlabels
  have hlength : (js.foldl (fun work j => (j, (1 : Int)) :: work) [(0, 0)]).length = handlers.length + 1 := by
    rw [foldl_flip_cons_eq_append, length_append, length_reverse, length_map, hplaces.length_eq]
    rfl
  have hfuel := unexplored_start items handlers
  rw [Nat.add_assoc _ handlers.length, ← Nat.add_assoc handlers.length 1 1, ← hlength] at hfuel
  obtain ⟨m, hm, hg⟩ := deepest_eq_ok honce heffect hD (explored_start hD hlabels hplaces) hfuel
  have hpos : 0 ≤ m := hg.2 (.inl rfl)
  refine ⟨m.toNat, by rwa [Int.toNat_of_nonneg hpos], ?_⟩
  rw [maxStack, hjs, ok_bind]
  simp only [hm, ok_bind]
  have hiff : m < 0x10000 ↔ m.toNat < 0x10000 := by omega
  simp only [hiff]
  rfl

/-- A loop with a jump to a subroutine, which stores where to return to, and an exception handler. -/
def loopWithSubroutine : List Item :=
  [.label ⟨0⟩, .insn (.jump Opcode.jsr ⟨2⟩), .insn (.int Opcode.bipush 5), .insn (.jump Opcode.ifeq ⟨0⟩),
    .insn (.simple Opcode.vreturn), .label ⟨1⟩, .insn (.simple Opcode.athrow), .label ⟨2⟩, .insn (.var Opcode.astore 1),
    .insn (.var Opcode.ret 1)]

def loopDepths (i : Nat) : Int := [0, 0, 0, 1, 0, 1, 1, 1, 1, 0].getD i 0

section
variable {i : Nat} {insn : Insn Label}

theorem insn_loop (h : loopWithSubroutine[i]? = some (.insn insn)) :
    i = 1 ∧ insn = .jump Opcode.jsr ⟨2⟩ ∨ i = 2 ∧ insn = .int Opcode.bipush 5 ∨ i = 3 ∧ insn = .jump Opcode.ifeq ⟨0⟩ ∨
      i = 4 ∧ insn = .simple Opcode.vreturn ∨ i = 6 ∧ insn = .simple Opcode.athrow ∨ i = 8 ∧ insn = .var Opcode.astore 1 ∨
      i = 9 ∧ insn = .var Opcode.ret 1 := by
  have hi := mk_mem_zipIdx_iff_getElem?.2 h
  simpa [loopWithSubroutine, and_comm] using hi

theorem label_loop {l : Label} (h : loopWithSubroutine[i]? = some (.label l)) :
    i = 0 ∧ l = ⟨0⟩ ∨ i = 5 ∧ l = ⟨1⟩ ∨ i = 7 ∧ l = ⟨2⟩ := by
  have hi := mk_mem_zipIdx_iff_getElem?.2 h
  simpa [loopWithSubroutine, and_comm] using hi

theorem effect_loop (h : .insn insn ∈ loopWithSubroutine) : ∃ e, insn.stackEffect = .ok e := by
  obtain ⟨i, hi⟩ := getElem?_of_mem h
  rcases insn_loop hi with h | h | h | h | h | h | h <;> rw [h.2] <;> exact ⟨_, rfl⟩

theorem refersOnce_loop : RefersOnce loopWithSubroutine [⟨1⟩] := by
  intro l hl
  have hcases : l = ⟨0⟩ ∨ l = ⟨1⟩ ∨ l = ⟨2⟩ := by
    rcases hl with hl | ⟨insn, hi, hl⟩
    · exact .inr (.inl (mem_singleton.1 hl))
    · obtain ⟨i, hi⟩ := getElem?_of_mem hi
      rcases insn_loop hi with h | h | h | h | h | h | h <;> rw [h.2] at hl <;> simp_all [Insn.targets]
  rcases hcases with rfl | rfl | rfl
  · exact ⟨0, rfl, fun j hj => by simpa using label_loop hj⟩
  · exact ⟨5, rfl, fun j hj => by simpa using label_loop hj⟩
  · exact ⟨7, rfl, fun j hj => by simpa using label_loop hj⟩

theorem stackDepths_loop : StackDepths loopWithSubroutine [⟨1⟩] loopDepths where
  first _ := rfl
  handler l hl i hi := by
    obtain rfl := mem_singleton.1 hl
    obtain rfl : i = 5 := by simpa using label_loop hi
    rfl
  pass i item _ hi hn _ := by
    cases item with
    | label l => rcases label_loop hi with h | h | h <;> rw [h.1] <;> rfl
    | frame f => simpa [loopWithSubroutine] using mem_of_getElem? hi
    | insn => cases hn
  enough i insn e _ hi he := by
    rcases insn_loop hi with h | h | h | h | h | h | h <;> rw [h.2] at he <;> cases he <;> rw [h.1] <;> decide
  target i insn e _ hi he l hl j hj := by
    have hlabel := label_loop hj
    rcases insn_loop hi with h | h | h | h | h | h | h <;> rw [h.2] at he hl <;> cases he <;> rw [h.1] <;>
      simp only [Insn.targets, not_mem_nil, mem_singleton] at hl
    · obtain rfl : j = 7 := by simpa [hl] using hlabel
      decide
    · obtain rfl : j = 0 := by simpa [hl] using hlabel
      decide
  next i insn e _ hi he hb _ := by
    rcases insn_loop hi with h | h | h | h | h | h | h <;> rw [h.2] at he hb ⊢ <;> cases he <;> rw [h.1] <;>
      first | decide | cases hb

end

theorem maxStack_eq_greatest_loop : StackDepths loopWithSubroutine [⟨1⟩] loopDepths ∧
    ∃ m : Nat, IsGreatest (reachedDepths loopWithSubroutine [⟨1⟩] loopDepths) m ∧
      maxStack loopWithSubroutine [⟨1⟩] = if m < 0x10000 then .ok (UInt16.ofNat m) else .error (.write (.maxStack m)) :=
  ⟨stackDepths_loop, maxStack_eq_greatest refersOnce_loop (fun _ => effect_loop) stackDepths_loop⟩

end ClassDoc
