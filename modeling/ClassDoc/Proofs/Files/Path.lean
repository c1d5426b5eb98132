/-
  Paths that stay below the directory they start from.

  A path descends if it is relative and has no `..` in it (`Path.Descends`). Pushed onto another path it leads to a place
  below that one (`Path.Descends.below_push`).
-/
import ClassDoc.Assembly
import ClassDoc.Proofs.Name.Escape
import Mathlib
namespace ClassDoc

open List

/-! ## Pieces -/

section Pieces

variable {α : Type} [DecidableEq α] {a : α}

theorem splitOn_append_cons (xs ys : List α) : (xs ++ a :: ys).splitOn a = xs.splitOn a ++ ys.splitOn a :=
  splitOnP_append_cons xs ys (beq_self_eq_true a)

theorem splitOn_cons (x : α) (xs : List α) :
    (x :: xs).splitOn a = if x = a then [] :: xs.splitOn a else (xs.splitOn a).modifyHead (List.cons x) := by
  simpa [List.splitOn] using splitOnP_cons_eq_if_modifyHead (p := (· == a)) x xs

theorem sublist_of_mem_splitOn {xs piece : List α} (h : piece ∈ xs.splitOn a) : piece.Sublist xs := by
  induction xs generalizing piece with
  | nil => simp_all
  | cons x xs ih =>
    rw [splitOn_cons] at h
    split at h
    · rcases mem_cons.1 h with rfl | h
      · exact nil_sublist _
      · exact (ih h).cons x
    · obtain ⟨p, ps, hp⟩ := exists_cons_of_ne_nil (splitOn_ne_nil a xs)
      rw [hp, modifyHead_cons] at h
      rw [hp] at ih
      rcases mem_cons.1 h with rfl | h
      · exact (ih mem_cons_self).cons_cons x
      · exact (ih (mem_cons_of_mem _ h)).cons x

theorem splitOn_append (xs : List α) {ys : List α} (h : a ∉ ys) :
    ∃ last, (xs ++ ys).splitOn a = (xs.splitOn a).dropLast ++ [last ++ ys] := by
  induction xs with
  | nil =>
    have hy : ([a].intercalate [ys]).splitOn a = [ys] := splitOn_intercalate a (by simpa using h) (by simp)
    exact ⟨[], by simpa using hy⟩
  | cons x xs ih =>
    obtain ⟨last, hl⟩ := ih
    obtain ⟨p, ps, hp⟩ := exists_cons_of_ne_nil (splitOn_ne_nil a xs)
    rw [cons_append, splitOn_cons, splitOn_cons, hl, hp]
    split
    · exact ⟨last, by simp⟩
    · cases ps with
      | nil => exact ⟨x :: last, by simp⟩
      | cons q ps => exact ⟨last, by simp⟩

end Pieces

/-! ## Paths -/

namespace Path

/-- The path is relative and never goes up. -/
def Descends (path : String) : Prop := ∀ k ∈ components path, k ≠ .root ∧ k ≠ .parent

instance (path : String) : Decidable (Descends path) := inferInstanceAs (Decidable (∀ k ∈ components path, _))

/-- The path goes on from a directory, and stays below it. -/
def Below (directory path : String) : Prop :=
  ∃ rest, components path = components directory ++ rest ∧ ∀ k ∈ rest, k ≠ .root ∧ k ≠ .parent

theorem root_not_mem_componentsOf (first : Bool) (pieces : List (List Char)) : .root ∉ componentsOf first pieces := by
  fun_induction componentsOf <;> simp_all

theorem parent_mem_componentsOf (first : Bool) (pieces : List (List Char)) :
    .parent ∈ componentsOf first pieces ↔ ['.', '.'] ∈ pieces := by
  fun_induction componentsOf with
  | case6 _ piece rest _ _ hp ih => simp [ih, Ne.symm hp]
  | _ => simp_all

theorem componentsOf_append (first : Bool) {ps : List (List Char)} (h : ps ≠ []) (qs : List (List Char)) :
    componentsOf first (ps ++ qs) = componentsOf first ps ++ componentsOf false qs := by
  induction ps generalizing first with
  | nil => simp at h
  | cons p ps ih =>
    have ht : componentsOf false (ps ++ qs) = componentsOf false ps ++ componentsOf false qs := by
      cases ps with
      | nil => simp [componentsOf]
      | cons q ps => exact ih false (by simp)
    simp only [cons_append, componentsOf, ht]
    split_ifs <;> simp

theorem components_eq (path : String) :
    components path = (if path.toList.head? = some '/' then [.root] else [])
      ++ componentsOf (path.toList.head? ≠ some '/') (path.toList.splitOn '/') := by
  rw [components]
  split
  next hp => simp [hp]
  next hp =>
    have hn : path.toList.head? ≠ some '/' := fun h => by
      obtain ⟨cs, hc⟩ := head?_eq_some_iff.1 h
      exact hp cs hc
    simp [hn]

variable {path directory : String}

/-- **A path descends if it does not start with a slash, and none of its pieces is `..`.** -/
theorem descends_iff : Descends path ↔ path.toList.head? ≠ some '/' ∧ ['.', '.'] ∉ path.toList.splitOn '/' := by
  rw [Descends, components_eq, ← parent_mem_componentsOf (path.toList.head? ≠ some '/')]
  by_cases h : path.toList.head? = some '/'
  · simp [h]
  · simp only [h, if_false, nil_append]
    refine ⟨fun hk => ⟨h, fun hp => (hk _ hp).2 rfl⟩, fun ⟨_, hp⟩ k hk => ⟨?_, ?_⟩⟩
    · exact fun hr => root_not_mem_componentsOf _ _ (hr ▸ hk)
    · exact fun hr => hp (hr ▸ hk)

theorem exists_toList_push (hd : directory ≠ "") (h : path.toList.head? ≠ some '/') :
    ∃ front, (directory.toList = front ∨ directory.toList = front ++ ['/']) ∧
      (push directory path).toList = front ++ '/' :: path.toList := by
  by_cases hl : directory.toList.getLast? = some '/'
  · obtain ⟨front, hf⟩ := getLast?_eq_some_iff.1 hl
    exact ⟨front, .inr hf, by simp [push, h, hf]⟩
  · have hn : directory.toList.getLast? ≠ none := by simpa using hd
    exact ⟨directory.toList, .inl rfl, by simp [push, h, hl, hn]⟩

theorem head?_push (hd : directory ≠ "") (h : path.toList.head? ≠ some '/') :
    (push directory path).toList.head? = directory.toList.head? := by
  obtain ⟨front, hf, hp⟩ := exists_toList_push hd h
  have hne : directory.toList ≠ [] := by simpa using hd
  rw [hp]
  rcases hf with hf | hf
  · rw [hf] at hne ⊢
    simp [head?_append_of_ne_nil _ hne]
  · rw [hf]
    cases front <;> simp

theorem components_push (hd : directory ≠ "") (h : path.toList.head? ≠ some '/') :
    components (push directory path) = components directory ++ componentsOf false (path.toList.splitOn '/') := by
  obtain ⟨front, hf, hp⟩ := exists_toList_push hd h
  rw [components_eq, head?_push hd h, hp, splitOn_append_cons, componentsOf_append _ (splitOn_ne_nil _ _), ← append_assoc,
    components_eq directory]
  rcases hf with hf | hf
  · rw [hf]
  · rw [hf, splitOn_append_cons, componentsOf_append _ (splitOn_ne_nil _ _)]
    simp [componentsOf]

/-- **A path that descends leads to a place below the path it is pushed onto.** -/
theorem Descends.below_push (h : Descends path) (directory : String) : Below directory (push directory path) := by
  have hh := (descends_iff.1 h).1
  by_cases hd : directory = ""
  · subst hd
    exact ⟨components path, by simp [push, hh, components, componentsOf], h⟩
  refine ⟨_, components_push hd hh, fun k hk => ⟨?_, ?_⟩⟩
  · exact fun hr => root_not_mem_componentsOf _ _ (hr ▸ hk)
  · exact fun hr => (descends_iff.1 h).2 ((parent_mem_componentsOf _ _).1 (hr ▸ hk))

end Path

/-! ## Documents -/

namespace Name

open ClassDoc.Path

def Dotless (path : String) : Prop := path.toList.head? ≠ some '/' ∧ '.' ∉ path.toList

variable {path : String}

theorem Dotless.push {segment : String} (h : Dotless path) (hs : Dotless segment) :
    Dotless (Path.push path segment) := by
  obtain ⟨hh, hd⟩ := h
  obtain ⟨hh', hd'⟩ := hs
  by_cases hp : path = ""
  · subst hp
    simpa [Path.push, hh'] using ⟨hh', hd'⟩
  · have hne : path.toList ≠ [] := by simpa using hp
    rw [Path.push, if_neg hh']
    split
    · exact ⟨by simpa [head?_append_of_ne_nil _ hne] using hh, by simp [hd, hd']⟩
    · refine ⟨?_, by simp [hd, hd']⟩
      rw [String.toList_append, String.toList_append, append_assoc, head?_append_of_ne_nil _ hne]
      exact hh

theorem dotless_escape (name : String) : Dotless (escape name) :=
  ⟨fun h => not_mem_escape (by decide) (by decide) name (mem_of_head? h),
    not_mem_escape (by decide) (by decide) name⟩

theorem dotless_foldl_push (segments : List String) (h : Dotless path) :
    Dotless ((segments.map escape).foldl Path.push path) := by
  induction segments generalizing path with
  | nil => exact h
  | cons s segments ih => exact ih (h.push (dotless_escape s))

theorem Dotless.descends (h : Dotless path) : Descends path := by
  refine descends_iff.2 ⟨h.1, fun hp => h.2 ?_⟩
  exact (sublist_of_mem_splitOn hp).subset (by simp)

theorem splitDot_of_dotless {name : List Char} (h : '.' ∉ name) : (splitDot name).1 = name := by
  have hd : name.reverse.dropWhile (· ≠ '.') = [] := by
    rw [dropWhile_eq_nil_iff]
    intro c hc
    simpa using fun hc' : c = '.' => h (by simpa [hc'] using hc)
  simp only [splitDot, hd]
  simp

theorem trimEnd_suffix (cs : List Char) : trimEnd cs <:+ cs := by
  fun_induction trimEnd with
  | case1 rest ih => exact ih.trans (suffix_cons _ _)
  | case2 rest ih => exact ih.trans (suffix_cons _ _)
  | case3 => exact suffix_rfl

theorem prefix_of_splitName? {folder name : List Char} (h : splitName? path = some (folder, name)) :
    folder ++ name <+: path.toList ∧ name ≠ [] := by
  simp only [splitName?] at h
  split at h
  · simp at h
  next hn =>
    simp only [Option.some.injEq, Prod.mk.injEq] at h
    obtain ⟨rfl, rfl⟩ := h
    rw [← reverse_append, takeWhile_append_dropWhile]
    refine ⟨?_, fun hne => hn (.inl hne)⟩
    simpa using reverse_prefix.2 (trimEnd_suffix path.toList.reverse)

/-- **The path of a document descends, whatever the class is called.** -/
theorem descends_documentPath (name : String) : Descends (documentPath name) := by
  have he : Dotless "" := ⟨by simp, by simp⟩
  have hd := dotless_foldl_push (pieces '/' name) he
  rw [documentPath, setExtension]
  split
  next => exact hd.descends
  next folder file hs =>
    obtain ⟨hp, hne⟩ := prefix_of_splitName? hs
    have hdot : '.' ∉ folder ++ file := fun h => hd.2 (hp.subset h)
    rw [splitDot_of_dotless fun h => hdot (mem_append_right _ h)]
    refine descends_iff.2 ⟨?_, fun h => ?_⟩
    · obtain ⟨rest, hr⟩ := hp
      have hh := hd.1
      rw [← hr, head?_append_of_ne_nil _ (by simp [hne])] at hh
      rw [String.toList_append, String.toList_ofList, head?_append_of_ne_nil _ (by simp [hne])]
      exact hh
    · -- Two dots would be more than the one of the extension.
      have hc := (sublist_of_mem_splitOn h).count_le '.'
      have hz := count_eq_zero_of_not_mem hdot
      rw [count_append] at hz
      simp [documentExtension] at hc
      omega

/-! ## Class files -/

/-- The class name does not lead elsewhere as a path: it does not start with a slash, and no package is called `..`. -/
def Contained (name : String) : Prop := name.toList.head? ≠ some '/' ∧ ".." ∉ (pieces '/' name).dropLast

instance (name : String) : Decidable (Contained name) := inferInstanceAs (Decidable (_ ∧ _))

/-- **The path of a class file descends if and only if the class name does not lead elsewhere.** -/
theorem descends_classPath {name : String} : Descends (classPath name) ↔ Contained name := by
  have ht : (classPath name).toList = name.toList ++ ['.', 'c', 'l', 'a', 's', 's'] := by simp [classPath, classExtension]
  have hn : '/' ∉ ['.', 'c', 'l', 'a', 's', 's'] := by decide
  obtain ⟨last, hs⟩ := splitOn_append name.toList hn
  have hp : ".." ∈ (pieces '/' name).dropLast ↔ ['.', '.'] ∈ (name.toList.splitOn '/').dropLast := by
    rw [pieces, ← map_dropLast, mem_map]
    constructor
    · rintro ⟨p, hp, he⟩
      rwa [← String.toList_ofList (l := p), he] at hp
    · exact fun h => ⟨_, h, rfl⟩
  -- The extension makes the last piece longer than two characters.
  have hl : ['.', '.'] ≠ last ++ ['.', 'c', 'l', 'a', 's', 's'] := fun h => by simpa using congrArg List.length h
  rw [descends_iff, Contained, ht, hs, hp, mem_append, mem_singleton, or_iff_left hl]
  refine and_congr_left fun _ => not_congr ?_
  cases name.toList <;> simp

end Name

/-- **Where the file of a class goes is below the output, except for class files of classes whose names lead
elsewhere.** -/
theorem Direction.descends_outputPath {direction : Direction} {className : String} :
    Path.Descends (direction.outputPath className) ↔ (direction = .toBinary → Name.Contained className) := by
  cases direction with
  | toDocument options => simpa [outputPath] using Name.descends_documentPath className
  | toBinary => simpa [outputPath] using Name.descends_classPath

end ClassDoc
