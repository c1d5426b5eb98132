/-
  Paths of documents give back the names of classes.
-/
import ClassDoc.Proofs.Fault
import ClassDoc.Proofs.Files.Path
namespace ClassDoc

open List

namespace Path

/-- The segment is a name that no path takes apart. -/
structure IsName (segment : String) : Prop where
  ne : segment ≠ ""
  slash : '/' ∉ segment.toList
  dot : '.' ∉ segment.toList

variable {segment path : String} {segments : List String}

theorem IsName.head (h : IsName segment) : segment.toList.head? ≠ some '/' :=
  fun hh => h.slash (mem_of_head? hh)

theorem IsName.componentsOf (h : IsName segment) (first : Bool) :
    componentsOf first (segment.toList.splitOn '/') = [.normal segment] := by
  have hs : segment.toList.splitOn '/' = [segment.toList] := by
    have hi : ∀ piece ∈ [segment.toList], '/' ∉ piece := by simpa using h.slash
    simpa using splitOn_intercalate '/' hi (by simp)
  have hne : segment.toList ≠ [] := by simpa using h.ne
  have h1 : segment.toList ≠ ['.'] := fun he => h.dot (by simp [he])
  have h2 : segment.toList ≠ ['.', '.'] := fun he => h.dot (by simp [he])
  simp [hs, Path.componentsOf, hne, h1, h2]

theorem push_ne_empty (h : segment ≠ "") : push path segment ≠ "" := by
  rw [push]
  split_ifs <;> simp [h]

theorem components_foldl_push (h : ∀ s ∈ segments, IsName s) (hp : path ≠ "") :
    components (segments.foldl push path) = components path ++ segments.map .normal := by
  induction segments generalizing path with
  | nil => simp
  | cons s segments ih =>
    rw [forall_mem_cons] at h
    rw [foldl_cons, ih h.2 (push_ne_empty h.1.ne), components_push hp h.1.head, h.1.componentsOf]
    simp

theorem exists_folder (hs : segments ≠ []) (h : ∀ s ∈ segments, IsName s) :
    ∃ folder last, (segments.foldl push "").toList = folder ++ last.toList ∧ IsName last ∧
      (folder = [] ∨ ∃ front, folder = front ++ ['/']) := by
  obtain ⟨init, last, rfl⟩ : ∃ init last, segments = init ++ [last] := ⟨_, _, (dropLast_append_getLast hs).symm⟩
  have hl := h last (by simp)
  rw [foldl_append]
  by_cases hi : init.foldl push "" = ""
  · exact ⟨[], last, by simp [hi, push, hl.head], hl, .inl rfl⟩
  · obtain ⟨front, -, hp⟩ := exists_toList_push hi hl.head
    exact ⟨front ++ ['/'], last, by simpa using hp, hl, .inr ⟨front, rfl⟩⟩

theorem splitName?_eq {folder name : List Char} (hp : path.toList = folder ++ name)
    (hf : folder = [] ∨ ∃ front, folder = front ++ ['/']) (hs : '/' ∉ name)
    (hn : ¬ (name = [] ∨ name = ['.'] ∨ name = ['.', '.'])) : splitName? path = some (folder, name) := by
  have hr : ∀ c ∈ name.reverse, c ≠ '/' := fun c hc he => hs (by simpa [he] using hc)
  have ht : trimEnd (name.reverse ++ folder.reverse) = name.reverse ++ folder.reverse := by
    rcases hrev : name.reverse with _ | ⟨c, _ | ⟨d, rest⟩⟩
    · exact absurd (.inl (reverse_eq_nil_iff.1 hrev)) hn
    · have hc : c ≠ '.' := fun he => hn (.inr (.inl (by simpa [he] using hrev)))
      rw [hrev, forall_mem_singleton] at hr
      rw [trimEnd] <;> simp_all
    · rw [hrev, forall_mem_cons, forall_mem_cons] at hr
      rw [trimEnd] <;> simp_all
  have hw : ∀ c ∈ name.reverse, decide (c ≠ '/') = true := fun c hc => decide_eq_true (hr c hc)
  have hfolder : folder.reverse.takeWhile (· ≠ '/') = [] ∧ folder.reverse.dropWhile (· ≠ '/') = folder.reverse := by
    rcases hf with rfl | ⟨front, rfl⟩ <;> simp
  simp only [splitName?, hp, reverse_append, ht, takeWhile_append_of_pos hw, dropWhile_append_of_pos hw,
    hfolder.1, hfolder.2,
    append_nil, reverse_reverse, hn, if_false]

theorem splitDot_append {stem tail : List Char} (hs : stem ≠ []) (ht : '.' ∉ tail) :
    splitDot (stem ++ '.' :: tail) = (stem, some tail) := by
  have hw : ∀ c ∈ tail.reverse, decide (c ≠ '.') = true := fun c hc => decide_eq_true fun he => ht (by simpa [he] using hc)
  have hr : (stem ++ '.' :: tail).reverse = tail.reverse ++ '.' :: stem.reverse := by simp
  simp only [splitDot, hr, takeWhile_append_of_pos hw, dropWhile_append_of_pos hw]
  simp [hs]

section
variable {path last : String} {folder : List Char} (hp : path.toList = folder ++ last.toList) (hl : IsName last)
  (hf : folder = [] ∨ ∃ front, folder = front ++ ['/']) {extension : String}
include hp hl hf

theorem splitName?_dot {path' : String} {tail : List Char} (ht : '/' ∉ tail)
    (hp' : path'.toList = path.toList ++ '.' :: tail) :
    splitName? path' = some (folder, last.toList ++ '.' :: tail) := by
  obtain ⟨c, cs, hc⟩ := exists_cons_of_ne_nil (show last.toList ≠ [] by simpa using hl.ne)
  have hd : c ≠ '.' := fun he => hl.dot (by simp [hc, he])
  refine splitName?_eq (by rw [hp', hp, append_assoc]) hf (by simp [hl.slash, ht]) ?_
  simp [hc, hd]

theorem setExtension_of_name (he : extension ≠ "") : setExtension path extension = path ++ "." ++ extension := by
  have hn : ¬ (last.toList = [] ∨ last.toList = ['.'] ∨ last.toList = ['.', '.']) := by
    rintro (h | h | h)
    · exact hl.ne (by simpa using h)
    · exact hl.dot (by simp [h])
    · exact hl.dot (by simp [h])
  rw [setExtension, splitName?_eq hp hf hl.slash hn]
  simp only [Name.splitDot_of_dotless hl.dot, ← hp, he, if_false, String.ofList_toList, String.append_assoc]

/-- **An extension is found where it was added, and taken away again.** -/
theorem withExtension_add (hs : '/' ∉ extension.toList) (hd : '.' ∉ extension.toList) :
    extension? (path ++ "." ++ extension) = some extension ∧ withExtension (path ++ "." ++ extension) "" = path := by
  have hne : last.toList ≠ [] := by simpa using hl.ne
  have he : extension? (path ++ "." ++ extension) = some extension := by
    rw [extension?, splitName?_dot hp hl hf hs (by simp)]
    simp [splitDot_append hne hd]
  refine ⟨he, ?_⟩
  have ht : (path ++ "." ++ extension).toList.take ((path ++ "." ++ extension).length - extension.length)
      = path.toList ++ ['.'] := by
    rw [String.length_append, Nat.add_sub_cancel, String.toList_append, take_left' String.length_toList,
      String.toList_append]
    rfl
  rw [withExtension, he]
  dsimp only
  rw [ht, setExtension, splitName?_dot hp hl hf not_mem_nil (by simp)]
  simp [splitDot_append hne, ← hp]

end

end Path

namespace Name

open ClassDoc.Path

theorem isName_escape {s : String} (h : s ≠ "") : IsName (escape s) :=
  ⟨escape_ne_empty h, not_mem_escape (by decide) (by decide) s, not_mem_escape (by decide) (by decide) s⟩

theorem mapM_segmentOf {segments : List String} (h : ∀ s ∈ segments, s ≠ "") (path : String) :
    ((segments.map escape).map Component.normal).mapM (segmentOf path) = .ok segments := by
  rw [map_map]
  exact mapM_map_eq_ok fun s hs => unescape_escape (h s hs)

theorem classFromPath_documentPath {name : String} (h : hasSegments name = true) :
    classFromPath (documentPath name) = .ok name := by
  have hs : ∀ s ∈ pieces '/' name, s ≠ "" := by simpa [hasSegments] using h
  have hn : ∀ s ∈ (pieces '/' name).map escape, IsName s := forall_mem_map.2 fun s hm => isName_escape (hs s hm)
  have hne : (pieces '/' name).map escape ≠ [] := by simpa using pieces_ne_nil '/' name
  obtain ⟨folder, last, hp, hl, hf⟩ := exists_folder hne hn
  have hc : components (((pieces '/' name).map escape).foldl push "") = ((pieces '/' name).map escape).map .normal := by
    obtain ⟨first, rest, hr⟩ := exists_cons_of_ne_nil hne
    rw [hr, forall_mem_cons] at hn
    have hfirst : push "" first = first := by simp [push, hn.1.head]
    rw [hr, foldl_cons, hfirst, components_foldl_push hn.2 hn.1.ne, components_eq]
    simp [hn.1.head, hn.1.componentsOf]
  have hx : '/' ∉ documentExtension.toList ∧ '.' ∉ documentExtension.toList := by decide
  obtain ⟨he, hw⟩ := withExtension_add hp hl hf hx.1 hx.2
  rw [documentPath, setExtension_of_name hp hl hf (by decide), classFromPath, he, if_neg (by simp)]
  dsimp only
  rw [hw, hc, mapM_segmentOf hs]
  exact congrArg Except.ok (intercalate_pieces '/' name)

theorem classFromDocument_error {name : String} (h : hasSegments name = false) :
    ∃ f, classFromDocument (classToDocument name) = .error f := by
  have hempty : escape "" ∈ (pieces '/' name).map escape := mem_map_of_mem (by simpa [hasSegments] using h)
  rw [classFromDocument, pieces_classToDocument]
  cases hm : ((pieces '/' name).map escape).mapM unescapeText with
  | error problem => exact ⟨_, rfl⟩
  | ok segments =>
    obtain ⟨s, -, hs⟩ := exists_of_mem_mapM hm hempty
    cases hs

/-- **A class name reads back from its document name exactly if no segment of it is empty, and then from the path of its
document as well. So different such names have different document names and paths.** -/
theorem classFromDocument_iff (name : String) :
    (hasSegments name = true → classFromDocument (classToDocument name) = .ok name ∧
      classFromPath (documentPath name) = .ok name) ∧
    (hasSegments name = false → ∃ f, classFromDocument (classToDocument name) = .error f) ∧
    ∀ other, hasSegments name = true → hasSegments other = true → name ≠ other →
      classToDocument name ≠ classToDocument other ∧ documentPath name ≠ documentPath other := by
  refine ⟨fun h => ⟨classFromDocument_classToDocument h, classFromPath_documentPath h⟩, classFromDocument_error, ?_⟩
  refine fun other h ho hne => ⟨fun he => hne ?_, fun he => hne ?_⟩
  · have hc := classFromDocument_classToDocument h
    rw [he, classFromDocument_classToDocument ho] at hc
    exact (Except.ok.inj hc).symm
  · have hc := classFromPath_documentPath h
    rw [he, classFromPath_documentPath ho] at hc
    exact (Except.ok.inj hc).symm

end Name

end ClassDoc
