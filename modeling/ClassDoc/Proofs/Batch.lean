/-
  The outcomes of many inputs do not depend on when their tasks are finished.
-/
import ClassDoc.Batch
import Mathlib.Data.List.Forall2
import Mathlib.Data.List.Perm.Basic
import Mathlib.Data.List.Perm.Subperm
import Mathlib.Data.List.Sort
namespace ClassDoc.Batch

def alone (direction : Direction) : (String × Bytes) × Nat → Outcome
  | ((id, content), index) =>
    let r := direction.convert content
    ⟨index, id, { r with value := within (.input id) r.value }⟩

def outcomes (direction : Direction) (inputs : List (String × Bytes)) : List Outcome :=
  inputs.zipIdx.map (alone direction)

def upToFailure (policy : Policy) : List Outcome → List Outcome
  | [] => []
  | o :: rest => if o.failed && policy = .failFast then [o] else o :: upToFailure policy rest

def task (handle : Nat → Nat) : (String × Bytes) × Nat → Task
  | ((id, content), index) => ⟨handle index, id, content⟩

variable {direction : Direction} {policy : Policy} {handle : Nat → Nat} {inputs : List (String × Bytes)}

/-! ## The loop -/

section
variable {order : List ((String × Bytes) × Nat)} {waiting : Waiting} {x : (String × Bytes) × Nat}

/-- The tasks wait under their handles. -/
def Awaits (handle : Nat → Nat) (waiting : Waiting) (order : List ((String × Bytes) × Nat)) : Prop :=
  ∀ x ∈ order, waiting[handle x.2]? = some (x.2, x.1.1)

theorem Awaits.erase (hh : handle.Injective) (hx : ∀ y ∈ order, x.2 ≠ y.2) (h : Awaits handle waiting (x :: order)) :
    Awaits handle (waiting.erase (handle x.2)) order := by
  intro y hy
  have hne : handle x.2 ≠ handle y.2 := fun e => hx y hy (hh e)
  rw [Std.HashMap.getElem?_erase, if_neg (by simpa using hne)]
  exact h y (List.mem_cons_of_mem x hy)

theorem collect_task {found : List Outcome} {rest : List Task} (h : waiting[handle x.2]? = some (x.2, x.1.1)) :
    collect direction policy waiting found (task handle x :: rest) =
      if (alone direction x).failed && policy = .failFast then (alone direction x :: found).reverse
      else collect direction policy (waiting.erase (handle x.2)) (alone direction x :: found) rest := by
  obtain ⟨⟨id, content⟩, index⟩ := x
  have ht : (task handle ((id, content), index)).handle = handle index := rfl
  rw [collect, ht, h]
  rfl

theorem collect_spawned (hh : handle.Injective) (hn : order.Pairwise fun x y => x.2 ≠ y.2)
    (hw : Awaits handle waiting order) (found : List Outcome) :
    collect direction policy waiting found (order.map (task handle)) =
      found.reverse ++ upToFailure policy (order.map (alone direction)) := by
  induction order generalizing waiting found with
  | nil => simp [collect, upToFailure]
  | cons x order ih =>
    obtain ⟨hx, hn⟩ := List.pairwise_cons.1 hn
    rw [List.map_cons, collect_task (hw x List.mem_cons_self), List.map_cons, upToFailure]
    split
    next => simp
    next => rw [ih hn (hw.erase hh hx), List.reverse_cons, List.append_assoc, List.singleton_append]

end

/-! ## The first failure -/

section
variable {os : List Outcome}

theorem upToFailure_collectAll (os : List Outcome) : upToFailure .collectAll os = os := by
  induction os with
  | nil => rfl
  | cons o os ih => simp [upToFailure, ih]

theorem upToFailure_of_forall (h : ∀ o ∈ os, o.failed = false) : upToFailure policy os = os := by
  induction os with
  | nil => rfl
  | cons o os ih =>
    rw [upToFailure, h o List.mem_cons_self, Bool.false_and, if_neg Bool.false_ne_true,
      ih fun o' ho' => h o' (List.mem_cons_of_mem o ho')]

theorem upToFailure_isPrefix (os : List Outcome) : upToFailure policy os <+: os := by
  induction os with
  | nil => exact List.prefix_rfl
  | cons o os ih =>
    rw [upToFailure]
    split
    next => exact ⟨os, rfl⟩
    next => exact List.cons_prefix_cons.2 ⟨rfl, ih⟩

theorem countP_upToFailure (h : ∃ o ∈ os, o.failed = true) : (upToFailure .failFast os).countP Outcome.failed = 1 := by
  induction os with
  | nil => simp at h
  | cons o os ih =>
    rw [upToFailure]
    cases ho : o.failed with
    | true => simp [ho]
    | false =>
      obtain ⟨o', ho', hf⟩ := h
      rcases List.mem_cons.1 ho' with rfl | ho'
      · rw [ho] at hf
        cases hf
      · simp [ho, ih ⟨o', ho', hf⟩]

end

/-! ## The order of the inputs -/

theorem pairwise_zipIdx (inputs : List (String × Bytes)) : inputs.zipIdx.Pairwise fun x y => x.2 < y.2 := by
  have h : (inputs.zipIdx.map Prod.snd).Pairwise (· < ·) := by
    rw [List.zipIdx_map_snd]
    exact List.pairwise_lt_range'
  exact List.pairwise_map.1 h

theorem pairwise_index (direction : Direction) (inputs : List (String × Bytes)) :
    (outcomes direction inputs).Pairwise fun a b => a.index < b.index :=
  List.pairwise_map.2 (pairwise_zipIdx inputs)

theorem mergeSort_sublist {os all : List Outcome} (hall : all.Pairwise fun a b => a.index < b.index)
    (h : os.Subperm all) : (os.mergeSort fun a b => a.index ≤ b.index).Sublist all := by
  obtain ⟨sorted, hperm, hsub⟩ := h
  have hindex : (all.map Outcome.index).Nodup := List.pairwise_map.2 (hall.imp fun h => Nat.ne_of_lt h)
  have hle : (os.mergeSort fun a b => a.index ≤ b.index).Pairwise fun a b => a.index ≤ b.index := by
    have htrans : ∀ a b c : Outcome, decide (a.index ≤ b.index) = true → decide (b.index ≤ c.index) = true →
        decide (a.index ≤ c.index) = true := by
      simp only [decide_eq_true_eq]
      exact fun a b c => Nat.le_trans
    have htotal : ∀ a b : Outcome, (decide (a.index ≤ b.index) || decide (b.index ≤ a.index)) = true := by
      simp only [Bool.or_eq_true, decide_eq_true_eq]
      exact fun a b => Nat.le_total _ _
    exact (List.pairwise_mergeSort htrans htotal os).imp of_decide_eq_true
  have hsame : (os.mergeSort fun a b => a.index ≤ b.index).Perm sorted :=
    (List.mergeSort_perm os _).trans hperm.symm
  have heq := List.Perm.eq_of_pairwise (fun a b ha hb hab hba => ?_) hle
    ((hall.sublist hsub).imp fun h => Nat.le_of_lt h) hsame
  · exact heq ▸ hsub
  · have ha := hsub.subset (hsame.mem_iff.1 ha)
    exact List.inj_on_of_nodup_map hindex ha (hsub.subset hb) (Nat.le_antisymm hab hba)

theorem awaits_waiting (hh : handle.Injective) (inputs : List (String × Bytes)) :
    Awaits handle (waiting handle inputs) inputs.zipIdx := by
  rintro ⟨⟨id, content⟩, index⟩ hx
  refine Std.HashMap.getElem?_ofList_of_mem (BEq.rfl) (List.pairwise_map.2 ?_) (List.mem_map.2 ⟨_, hx, rfl⟩)
  refine (pairwise_zipIdx inputs).imp fun {x y} hxy => beq_eq_false_iff_ne.2 fun e => ?_
  exact Nat.ne_of_lt hxy (hh e)

theorem exists_collect (direction : Direction) (policy : Policy) (hh : handle.Injective) {finished : List Task}
    (h : finished.Perm (spawn handle inputs)) :
    ∃ os, os.Perm (outcomes direction inputs) ∧
      collect direction policy (waiting handle inputs) [] finished = upToFailure policy os := by
  have hspawn : List.Forall₂ (fun t x => t = task handle x) (spawn handle inputs) inputs.zipIdx :=
    List.forall₂_map_left_iff.2 (List.forall₂_same.2 fun _ _ => rfl)
  obtain ⟨order, horder, hperm⟩ := List.perm_comp_forall₂ h hspawn
  obtain rfl : finished = order.map (task handle) := by
    rw [← List.forall₂_eq_eq_eq]
    exact List.forall₂_map_right_iff.2 horder
  refine ⟨order.map (alone direction), hperm.map _, ?_⟩
  have hw : Awaits handle (waiting handle inputs) order := fun x hx => awaits_waiting hh inputs x (hperm.mem_iff.1 hx)
  have hn : order.Pairwise fun x y => x.2 ≠ y.2 :=
    (hperm.pairwise_iff fun h => h.symm).2 ((pairwise_zipIdx inputs).imp fun h => Nat.ne_of_lt h)
  exact collect_spawned hh hn hw []

theorem mergeSort_eq_outcomes {os : List Outcome} (h : os.Perm (outcomes direction inputs)) :
    (os.mergeSort fun a b => a.index ≤ b.index) = outcomes direction inputs := by
  refine (mergeSort_sublist (pairwise_index direction inputs) h.subperm).eq_of_length ?_
  rw [List.length_mergeSort, h.length_eq]

theorem finish_eq_outcomes (hh : handle.Injective) {finished : List Task} (h : finished.Perm (spawn handle inputs))
    (hp : policy = .collectAll ∨ ∀ o ∈ outcomes direction inputs, o.failed = false) :
    finish direction policy (waiting handle inputs) finished = outcomes direction inputs := by
  obtain ⟨os, hos, hc⟩ := exists_collect direction policy hh h
  have hall : upToFailure policy os = os := by
    rcases hp with rfl | hf
    · exact upToFailure_collectAll os
    · exact upToFailure_of_forall fun o ho => hf o (hos.mem_iff.1 ho)
  rw [finish, hc, hall, mergeSort_eq_outcomes hos]

theorem run_collectAll (direction : Direction) (inputs : List (String × Bytes)) :
    run direction .collectAll inputs = outcomes direction inputs :=
  finish_eq_outcomes Function.injective_id (.refl _) (.inl rfl)

/-- **The outcomes of inputs do not depend on when their tasks are finished.** If all are collected, they are what comes
out of each input on its own. If a failure ends all, they are some of those in the order of the inputs, with one failure
if there is one, and all of them if there is none. -/
theorem finish_spawned (direction : Direction) (inputs : List (String × Bytes)) {handle : Nat → Nat}
    (hh : handle.Injective) {finished : List Task} (h : finished.Perm (spawn handle inputs)) :
    finish direction .collectAll (waiting handle inputs) finished = outcomes direction inputs ∧
      (finish direction .failFast (waiting handle inputs) finished).Sublist (outcomes direction inputs) ∧
      ((∃ o ∈ outcomes direction inputs, o.failed = true) →
        (finish direction .failFast (waiting handle inputs) finished).countP Outcome.failed = 1) ∧
      ((∀ o ∈ outcomes direction inputs, o.failed = false) →
        finish direction .failFast (waiting handle inputs) finished = outcomes direction inputs) := by
  obtain ⟨os, hos, hc⟩ := exists_collect direction .failFast hh h
  refine ⟨finish_eq_outcomes hh h (.inl rfl), ?_, fun ⟨o, ho, hf⟩ => ?_, fun hf => finish_eq_outcomes hh h (.inr hf)⟩
  · rw [finish, hc]
    refine mergeSort_sublist (pairwise_index direction inputs) ?_
    exact (upToFailure_isPrefix os).sublist.subperm.trans hos.subperm
  · rw [finish, hc, (List.mergeSort_perm _ _).countP_eq]
    exact countP_upToFailure ⟨o, hos.mem_iff.2 ho, hf⟩

/-- Two inputs with the same id that are no texts, of which the second one is finished first. -/
theorem finish_spawned_reversed : ∃ inputs : List (String × Bytes), inputs = [("a", [0xff]), ("a", [0xfe])] ∧
    finish .toBinary .collectAll (waiting (· + 3) inputs) (spawn (· + 3) inputs).reverse
      = outcomes .toBinary inputs ∧
    (∃ o ∈ outcomes .toBinary inputs, o.failed = true) ∧
    (finish .toBinary .failFast (waiting (· + 3) inputs) (spawn (· + 3) inputs).reverse).countP Outcome.failed = 1 := by
  refine ⟨_, rfl, ?_⟩
  have hf : ∃ o ∈ outcomes .toBinary [("a", [0xff]), ("a", [0xfe])], o.failed = true :=
    ⟨_, List.mem_cons_self, by decide +kernel⟩
  obtain ⟨hall, -, hone, -⟩ := finish_spawned .toBinary [("a", [0xff]), ("a", [0xfe])]
    (fun _ _ => Nat.add_right_cancel) (List.reverse_perm _)
  exact ⟨hall, hf, hone hf⟩

end ClassDoc.Batch
