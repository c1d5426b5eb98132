/-
  How many document names a class or a member has.

  The document name of a class is split at dots and the name itself at slashes, but an escape in a segment can stand for a
  slash as well. Names of members are split at a sign that no escaped name has.
-/
import ClassDoc.Proofs.Fault
import ClassDoc.Proofs.Name.Escape
namespace ClassDoc.Name

open List

/-! ## Classes -/

theorem not_mem_of_mem_pieces {separator : Char} {text piece : String} (h : piece ∈ pieces separator text) :
    separator ∉ piece.toList := by
  have hsplit : ∀ cs : List Char, ∀ p ∈ cs.splitOn separator, separator ∉ p := by
    intro cs
    induction cs with
    | nil => simp
    | cons c cs ih =>
      intro p hp
      rw [splitOn_cons_eq_if_modifyHead] at hp
      split at hp
      next =>
        rcases mem_cons.1 hp with rfl | hp
        · exact not_mem_nil
        · exact ih p hp
      next hc =>
        obtain ⟨first, rest, hs⟩ := exists_cons_of_ne_nil (splitOn_ne_nil separator cs)
        rw [hs, modifyHead_cons] at hp
        rw [hs] at ih
        rcases mem_cons.1 hp with rfl | hp
        · have hne : separator ≠ c := fun he => hc (by simp [he])
          exact not_mem_cons_of_ne_of_not_mem hne (ih first mem_cons_self)
        · exact ih p (mem_cons_of_mem _ hp)
  obtain ⟨p, hp, rfl⟩ := mem_map.1 h
  simpa using hsplit _ p hp

theorem classFromDocument_eq_ok_iff {text name : String} : classFromDocument text = .ok name ↔
    ∃ segments, pieces '.' text = segments.map escape ∧ (∀ s ∈ segments, s ≠ "") ∧
      name = String.intercalate "/" segments := by
  rw [classFromDocument, bind_eq_ok]
  constructor
  · rintro ⟨segments, hs, h⟩
    have hm : (pieces '.' text).mapM unescapeText = .ok segments := by
      cases hm : (pieces '.' text).mapM unescapeText with
      | ok found =>
        rw [hm] at hs
        cases hs
        rfl
      | error problem =>
        rw [hm] at hs
        cases hs
    have hf := (mapM_eq_ok_iff.1 hm).imp fun _ _ => unescapeText_eq_ok
    refine ⟨segments, ?_, fun s hmem => ?_, (Except.ok.inj h).symm⟩
    · rw [← forall₂_eq_eq_eq, forall₂_map_right_iff]
      exact hf.imp fun _ _ => And.right
    · obtain ⟨_, -, hne, -⟩ := exists_of_mem_right hf hmem
      exact hne
  · rintro ⟨segments, hp, hne, rfl⟩
    exact ⟨segments, by rw [hp, mapM_unescapeText hne]; rfl, rfl⟩

/-- No segment of the document name has an escaped slash in it. -/
def Unslashed (text : String) : Prop := ∀ s, escape s ∈ pieces '.' text → '/' ∉ s.toList

theorem unslashed_classToDocument (name : String) : Unslashed (classToDocument name) := by
  intro s hs
  rw [pieces_classToDocument] at hs
  obtain ⟨t, ht, he⟩ := mem_map.1 hs
  rw [← escape_injective he]
  exact not_mem_of_mem_pieces ht

theorem classToDocument_of_unslashed {text name : String} (h : classFromDocument text = .ok name) (hu : Unslashed text) :
    classToDocument name = text := by
  obtain ⟨segments, hp, -, rfl⟩ := classFromDocument_eq_ok_iff.1 h
  have hne : segments ≠ [] := by
    rintro rfl
    exact pieces_ne_nil '.' text hp
  have hs : pieces '/' (String.intercalate "/" segments) = segments :=
    pieces_intercalate hne fun s hm => hu s (hp ▸ mem_map_of_mem hm)
  calc classToDocument (String.intercalate "/" segments)
    _ = String.intercalate "." (pieces '.' text) := by rw [classToDocument, hs, hp]
    _ = text := intercalate_pieces '.' text

/-- **A document name of a class is the one that is written for it exactly if no segment of it has an escaped slash.** -/
theorem classToDocument_eq_iff {text name : String} (h : classFromDocument text = .ok name) :
    classToDocument name = text ↔ Unslashed text :=
  ⟨fun he => he ▸ unslashed_classToDocument name, classToDocument_of_unslashed h⟩

theorem classToDocument_eq_iff_nested : classFromDocument "java.lang.Map_dEntry" = .ok "java/lang/Map$Entry" ∧
    (classToDocument "java/lang/Map$Entry" = "java.lang.Map_dEntry" ↔ Unslashed "java.lang.Map_dEntry") := by
  have h : classFromDocument "java.lang.Map_dEntry" = .ok "java/lang/Map$Entry" := by rfl
  exact ⟨h, classToDocument_eq_iff h⟩

/-- The class `a/b` has a document name other than the one that is written for it. -/
theorem classFromDocument_slashed : classFromDocument "a_sb" = .ok "a/b" ∧ classToDocument "a/b" ≠ "a_sb" :=
  ⟨by rfl, by decide +kernel⟩

/-! ## Members -/

theorem getD_counts (members : List (String × String)) (counts : Std.HashMap String Nat) (name : String) :
    (members.foldl (fun (counts : Std.HashMap String Nat) m =>
      counts.insert m.1 (counts.getD m.1 0 + 1)) counts).getD name 0 =
      counts.getD name 0 + (members.map Prod.fst).count name := by
  induction members generalizing counts with
  | nil => simp
  | cons m members ih =>
    rw [foldl_cons, ih, Std.HashMap.getD_insert, map_cons, count_cons]
    by_cases hn : m.1 = name
    · simp [hn]
      omega
    · simp [hn]

def isShared (members : List (String × String)) (name : String) : Bool := 1 < (members.map Prod.fst).count name

theorem memberNames_eq_map (members : List (String × String)) :
    memberNames members = members.map fun m => memberText (isShared members m.1) m.1 m.2 := by
  have hc : ∀ name, (members.foldl (fun (counts : Std.HashMap String Nat) m =>
      counts.insert m.1 (counts.getD m.1 0 + 1)) {}).getD name 0 = (members.map Prod.fst).count name := by
    intro name
    rw [getD_counts]
    simp
  simp only [memberNames, hc, memberText, isShared, decide_eq_true_eq, gt_iff_lt]

variable {members : List (String × String)}

theorem isShared_perm {members' : List (String × String)} (h : members.Perm members') (name : String) :
    isShared members name = isShared members' name := by
  rw [isShared, isShared, (h.map Prod.fst).count_eq]

theorem isShared_of_ne {m m' : String × String} (hm : m ∈ members) (hm' : m' ∈ members)
    (hn : m.1 = m'.1) (hne : m ≠ m') : isShared members m.1 = true := by
  obtain ⟨ms, hp, hs⟩ : [m, m'].Subperm members := subperm_of_subset (by simpa using hne) (by simp [hm, hm'])
  have hc := (hs.map Prod.fst).count_le m.1
  rw [(hp.map Prod.fst).count_eq] at hc
  rw [isShared, decide_eq_true_eq]
  simp only [map_cons, map_nil, ← hn, count_cons_self, count_nil] at hc
  omega

theorem nodup_memberNames (h : ∀ m ∈ members, m.1 ≠ "" ∧ m.2 ≠ "")
    (hd : members.Nodup) : (memberNames members).Nodup := by
  rw [memberNames_eq_map]
  refine Nodup.map_on (fun m hm m' hm' he => ?_) hd
  have hr := memberFromDocument_memberText (isShared members m.1) (h m hm).1 (h m hm).2
  rw [he, memberFromDocument_memberText _ (h m' hm').1 (h m' hm').2, Except.ok.injEq, Prod.mk.injEq] at hr
  obtain ⟨hn, hdesc⟩ := hr
  by_contra hne
  -- the two share their name, so both names tell the descriptor
  rw [hn, isShared_of_ne hm hm' hn.symm hne] at hdesc
  exact hne (Prod.ext hn.symm (Option.some.inj hdesc).symm)

theorem getElem?_memberNames_permuted (members : List (String × String)) (σ : Equiv.Perm (Fin members.length))
    (i : Fin members.length) :
    (memberNames (ofFn fun i => members[σ i]))[i.val]? = (memberNames members)[(σ i).val]? := by
  have hp : (ofFn fun i => members[σ i]).Perm members := by
    have hc := Equiv.Perm.ofFn_comp_perm σ members.get
    rwa [ofFn_get] at hc
  rw [memberNames_eq_map, memberNames_eq_map, getElem?_map, getElem?_map]
  simp only [isShared_perm hp]
  simp

/-- **The document name of a member gives back its name, and its descriptor if another member has the same name. The names of
different members are different, and do not depend on the order of the members.** -/
theorem memberNames_distinct (members : List (String × String)) (h : ∀ m ∈ members, m.1 ≠ "" ∧ m.2 ≠ "") :
    ((memberNames members).map memberFromDocument =
      members.map fun m => .ok (m.1, if 1 < (members.map Prod.fst).count m.1 then some m.2 else none)) ∧
    (members.Nodup → (memberNames members).Nodup) ∧
    ∀ (σ : Equiv.Perm (Fin members.length)) (i : Fin members.length),
      (memberNames (ofFn fun i => members[σ i]))[i.val]? = (memberNames members)[(σ i).val]? := by
  refine ⟨?_, nodup_memberNames h, getElem?_memberNames_permuted members⟩
  rw [memberNames_eq_map, map_map]
  refine map_congr_left fun m hm => ?_
  rw [Function.comp_apply, memberFromDocument_memberText _ (h m hm).1 (h m hm).2]
  simp [isShared]

/-- Two members named `a`, and two with names that look like an `a` with a descriptor. -/
def dashedMembers : List (String × String) := [("a", "I"), ("a-I", "J"), ("a", "J"), ("a_hI", "()V")]

theorem memberNames_distinct_dashed : dashedMembers.Nodup ∧ (memberNames dashedMembers).Nodup ∧
    (memberNames dashedMembers).map memberFromDocument =
      [.ok ("a", some "I"), .ok ("a-I", none), .ok ("a", some "J"), .ok ("a_hI", none)] := by
  have h := memberNames_distinct dashedMembers (by decide)
  have hd : dashedMembers.Nodup := by decide
  exact ⟨hd, h.2.1 hd, h.1⟩

end ClassDoc.Name
