/-
  Line numbers and signatures of local variables in code that is read.

  Lines at the end of the code are lost, and so are signatures that no variable has or that a later entry replaces. All
  others are kept (`readCode_debugTables`).
-/
import ClassDoc.Proofs.ClassFile.Reading
import ClassDoc.Proofs.Code.Canonical
import ClassDoc.Proofs.Model.Code
namespace ClassDoc

open List

variable {α β κ : Type} {pool : PoolView} {i : Input}

theorem filter_cons_perm [BEq κ] [LawfulBEq κ] (key : α → κ) (xs : List α) (k : κ) (ks : List κ) :
    (xs.filter fun x => key x == k) ++ ((xs.filter fun x => key x != k).filter fun x => decide (key x ∈ ks))
      ~ xs.filter fun x => decide (key x ∈ k :: ks) := by
  have hsplit := filter_append_perm (fun x => key x == k) (xs.filter fun x => decide (key x ∈ k :: ks))
  refine Perm.trans (.of_eq ?_) hsplit
  simp only [filter_filter]
  congr 1
  · refine filter_congr fun x _ => ?_
    by_cases hx : key x = k <;> simp [hx]
  · refine filter_congr fun x _ => ?_
    by_cases hx : key x = k <;> simp [hx, bne, Bool.and_comm]

theorem flatMap_filter_perm [BEq κ] [LawfulBEq κ] (key : α → κ) (xs : List α) {ks : List κ} (h : ks.Nodup) :
    ks.flatMap (fun k => xs.filter fun x => key x == k) ~ xs.filter fun x => decide (key x ∈ ks) := by
  induction ks with
  | nil => simp
  | cons k ks ih =>
    obtain ⟨hk, h⟩ := nodup_cons.1 h
    have hother : ((xs.filter fun x => key x != k).filter fun x => decide (key x ∈ ks))
        = xs.filter fun x => decide (key x ∈ ks) := by
      rw [filter_filter]
      refine filter_congr fun x _ => ?_
      by_cases hx : key x = k <;> simp [hx, hk]
    refine Perm.trans ?_ (filter_cons_perm key xs k ks)
    rw [flatMap_cons, hother]
    exact (ih h).append_left _

/-! ## The tables of code -/

namespace CodeRead

variable (c : CodeRead pool i)

theorem flatMap_parts {f : CodePart → List β} {d : Decode (List β)} {name : String} (hname : name ∈ CodePart.names)
    (hf : ∀ p n i j, p.IsAt pool c.length.toUInt16 n i j → n = name ∧ d i = .ok (f p, j) ∨ n ≠ name ∧ f p = []) :
    (partsOf c.attributes).flatMap f = c.attributes.flatMap (AttributeRead.entries d name) := by
  refine (flatMap_partsOf c.attributes f).trans (flatMap_congr fun a ha => ?_)
  obtain ⟨_, j, _, _, -, -, -, hr⟩ := c.readsTables.exists_at a ha
  obtain ⟨-, ⟨p, hp, hat⟩ | ⟨hp, hn⟩⟩ := (gives_readCodePart pool _ _ _ _).of_ran hr
  · rw [hp, Option.toList_some, flatMap_singleton]
    rcases hf p _ _ _ hat with ⟨rfl, hd⟩ | ⟨hne, hnil⟩
    · exact (AttributeRead.entries_of_ok hd).symm
    · rw [hnil, AttributeRead.entries, if_neg hne]
  · rw [hp, AttributeRead.entries, if_neg fun h : a.name = name => hn (h ▸ hname)]
    rfl

/-- The entries of the tables of line numbers: positions with lines. -/
def lineEntries : List (UInt16 × UInt16) :=
  c.attributes.flatMap (AttributeRead.entries (decodeLines c.length.toUInt16) Attribute.lineNumberTableName)

def variableEntries : List RawVariable :=
  c.attributes.flatMap (AttributeRead.entries (decodeVariables pool c.length.toUInt16) Attribute.localVariableTableName)

/-- The entries of the tables of signatures of local variables. -/
def signatureEntries : List (VariableKey × String) :=
  c.attributes.flatMap
    (AttributeRead.entries (Decode.list (decodeVariableSignature pool)) Attribute.localVariableTypeTableName)

theorem lines_raw : c.raw.lines = c.lineEntries := by
  refine c.flatMap_parts (by decide) fun p n i j h => ?_
  cases p with
  | lines l => exact .inl h
  | types v l =>
    have hne : ∀ v, Attribute.typeAnnotationsName v ≠ Attribute.lineNumberTableName := by decide
    exact .inr ⟨h.1 ▸ hne v, rfl⟩
  | _ => exact .inr ⟨h.1 ▸ by decide, rfl⟩

theorem locals_raw : c.raw.locals = c.variableEntries := by
  refine c.flatMap_parts (by decide) fun p n i j h => ?_
  cases p with
  | locals l => exact .inl h
  | types v l =>
    have hne : ∀ v, Attribute.typeAnnotationsName v ≠ Attribute.localVariableTableName := by decide
    exact .inr ⟨h.1 ▸ hne v, rfl⟩
  | _ => exact .inr ⟨h.1 ▸ by decide, rfl⟩

theorem signatures_raw : c.raw.signatures = c.signatureEntries := by
  refine c.flatMap_parts (by decide) fun p n i j h => ?_
  cases p with
  | signatures l => exact .inl h
  | types v l =>
    have hne : ∀ v, Attribute.typeAnnotationsName v ≠ Attribute.localVariableTypeTableName := by decide
    exact .inr ⟨h.1 ▸ hne v, rfl⟩
  | _ => exact .inr ⟨h.1 ▸ by decide, rfl⟩

end CodeRead

/-- The signature of a variable, with what it is found by. -/
def LocalVariable.signed? (v : LocalVariable) : Option ((Label × Label × UInt16 × String) × String) :=
  v.signature.map fun s => (v.key, s)

namespace RawCode

variable {raw : RawCode} {code : List CodeEvent}

theorem isSome_labels {o : UInt16} (h : o ∈ raw.references) : (raw.labels[o]?).isSome = true := by
  obtain ⟨i, hi⟩ := mem_iff_getElem?.1 (raw.mem_labelOffsets.2 h)
  rw [raw.getElem?_labels.2 ⟨i, hi, rfl⟩]
  rfl

/-! ## Line numbers -/

theorem mem_references_of_line {l : UInt16 × UInt16} (h : l ∈ raw.lines) : l.1 ∈ raw.references := by
  simp only [references, mem_append]
  exact .inl (.inl (.inr (mem_map_of_mem h)))

theorem lineNumber?_insnEvents (i : UInt16 × Insn UInt16) :
    (insnEvents raw.labels raw.framesAt raw.linesAt i).filterMap Body.lineNumber?
      = (raw.lines.filter fun l => l.1 == i.1).map fun l => (l.2, labelAt raw.labels l.1) := by
  have hframe : (raw.framesAt[i.1]?.toList.map fun f =>
      CodeEvent.frame (Id.run (f.mapLabels (labelAt raw.labels)))).filterMap
      Body.lineNumber? = [] := by
    simp [filterMap_map, Function.comp_def, Body.lineNumber?]
  rw [insnEvents_eq, filterMap_append, filterMap_append, hframe, append_nil, getD_linesAt, reverse_reverse]
  cases hl : raw.labels[i.1]? with
  | none =>
    have hnil : raw.lines.filter (fun l => l.1 == i.1) = [] := by
      refine filter_eq_nil_iff.2 fun l hm he => ?_
      have hs := isSome_labels (mem_references_of_line hm)
      rw [eq_of_beq he, hl] at hs
      cases hs
    rw [hnil]
    rfl
  | some label =>
    have hlabel : ∀ l ∈ raw.lines.filter (fun l => l.1 == i.1), (l.2, labelAt raw.labels l.1) = (l.2, label) := by
      intro l hm
      rw [eq_of_beq (mem_filter.1 hm).2, labelAt, hl]
      rfl
    rw [map_congr_left hlabel]
    simp [filterMap_cons, filterMap_map, Function.comp_def, Body.lineNumber?]

theorem lineNumbers_perm (h : raw.events = .ok code) (ha : Ascending 0 raw.length.toNat raw.insns) :
    (Body.ofEvents code).lineNumbers
      ~ (raw.lines.filter fun l => l.1 ≠ raw.length).map fun l => (l.2, labelAt raw.labels l.1) := by
  have hcheck : raw.check = .ok () := by
    obtain ⟨_, hc, -⟩ := bind_eq_ok.1 h
    exact hc
  have htry : (raw.tryCatchEvents raw.labels).filterMap Body.lineNumber? = [] := by
    simp [tryCatchEvents, filterMap_map, Function.comp_def, Body.lineNumber?]
  have hend : (raw.endEvents raw.labels).filterMap Body.lineNumber? = [] := by
    rw [endEvents]
    split <;> rfl
  have hlines : (Body.ofEvents code).lineNumbers = ((raw.insns.map Prod.fst).flatMap fun o => raw.lines.filter fun l =>
      l.1 == o).map fun l => (l.2, labelAt raw.labels l.1) := by
    rw [(ofEvents_parts h).2.2, parts, filterMap_append, filterMap_append, htry, hend, nil_append, append_nil,
      filterMap_flatMap, map_flatMap, flatMap_map]
    exact flatMap_congr fun i _ => lineNumber?_insnEvents i
  -- Every line stands at an instruction or at the end.
  have hmem : ∀ l ∈ raw.lines, decide (l.1 ∈ raw.insns.map Prod.fst) = decide (l.1 ≠ raw.length) := by
    intro l hl
    have hlt : l.1 ∈ raw.insns.map Prod.fst → l.1 ≠ raw.length := by
      intro hm he
      obtain ⟨i, hi, hil⟩ := mem_map.1 hm
      exact absurd (ha.lt i hi) (by rw [hil, he]; exact Nat.lt_irrefl _)
    refine decide_eq_decide.2 ⟨hlt, fun hne => ?_⟩
    rcases mem_append.1 (labels_of_check hcheck (mem_references_of_line hl)) with hm | hm
    · exact hm
    · exact absurd (mem_singleton.1 hm) hne
  have hnodup : (raw.insns.map Prod.fst).Nodup := ha.pairwise.imp fun h => UInt16.ne_of_lt h
  rw [hlines]
  exact ((flatMap_filter_perm Prod.fst raw.lines hnodup).trans (.of_eq (filter_congr hmem))).map _

/-! ## Signatures -/

/-- The range, index and name of a variable, with labels. -/
def labelledKey (raw : RawCode) (key : VariableKey) : Label × Label × UInt16 × String :=
  (labelAt raw.labels key.1, labelAt raw.labels (key.1 + key.2.1), key.2.2.1, key.2.2.2)

/-- The entries of a table of signatures that no later one replaces. -/
def lastSignatures (signatures : List (VariableKey × String)) : List (VariableKey × String) :=
  signatures.pwFilter fun a b => a.1 ≠ b.1

theorem getElem?_signaturesOf {key : VariableKey} {s : String} :
    raw.signaturesOf[key]? = some s ↔ (key, s) ∈ lastSignatures raw.signatures := by
  rw [signaturesOf, getElem?_foldl_insert Prod.fst Prod.snd, lastSignatures]
  induction raw.signatures with
  | nil => simp
  | cons x xs ih =>
    have hkey : (∀ y ∈ xs.pwFilter fun a b => a.1 ≠ b.1, x.1 ≠ y.1) ↔ ∀ y ∈ xs, x.1 ≠ y.1 := by
      refine forall_mem_pwFilter (R := fun a b : VariableKey × String => a.1 ≠ b.1) ?_ x xs
      intro a b c hac
      by_contra hn
      rw [not_or, not_not, not_not] at hn
      exact hac (hn.1.trans hn.2)
    rw [reverse_cons, find?_append]
    cases hfind : xs.reverse.find? fun x => x.1 == key with
    | some y =>
      -- A later entry has the key.
      have hy : y ∈ xs := mem_reverse.1 (mem_of_find?_eq_some hfind)
      have hyk : y.1 = key := by simpa using find?_some hfind
      rw [hfind] at ih
      by_cases hx : ∀ y ∈ xs.pwFilter fun a b => a.1 ≠ b.1, x.1 ≠ y.1
      · have hne : (key, s) ≠ x := fun he => hkey.1 hx y hy (by rw [← he, hyk])
        rw [pwFilter_cons_of_pos hx, mem_cons, or_iff_right hne]
        exact ih
      · rw [pwFilter_cons_of_neg hx]
        exact ih
    | none =>
      have hno : ∀ y ∈ xs, y.1 ≠ key := fun y hy he => by simpa [he] using find?_eq_none.1 hfind y (mem_reverse.2 hy)
      have hlast : (key, s) ∉ xs.pwFilter fun a b => a.1 ≠ b.1 := fun hm => hno _ (pwFilter_subset _ hm) rfl
      by_cases hxk : x.1 = key
      · rw [pwFilter_cons_of_pos (hkey.2 fun y hy he => hno y hy (he.symm.trans hxk)), mem_cons, or_iff_left hlast]
        subst hxk
        simp [Prod.ext_iff, eq_comm]
      · refine iff_of_false (by simp [hxk]) fun hm => ?_
        rcases mem_cons.1 (pwFilter_subset _ hm) with rfl | hm
        · exact hxk rfl
        · exact hno _ hm rfl

theorem signed?_variableEvents {vs : List RawVariable} {signatures : Std.HashMap VariableKey String}
    {entries : List (VariableKey × String)} (hn : (entries.map Prod.fst).Nodup)
    (hs : ∀ key s, signatures[key]? = some s ↔ (key, s) ∈ entries) (found : List CodeEvent) :
    ((variableEvents raw.labels signatures found vs).filterMap Body.localVariable?).filterMap LocalVariable.signed?
      ~ (found.reverse.filterMap Body.localVariable?).filterMap LocalVariable.signed?
        ++ (entries.filter fun x => decide (x.1 ∈ vs.map RawVariable.key)).map fun x => (raw.labelledKey x.1, x.2) := by
  induction vs generalizing signatures entries found with
  | nil => simp [variableEvents]
  | cons v vs ih =>
    have hrest : ∀ key s, (signatures.erase v.key)[key]? = some s ↔ (key, s) ∈ entries.filter fun x => x.1 != v.key := by
      intro key s
      rw [Std.HashMap.getElem?_erase, mem_filter, ← hs]
      by_cases hk : v.key = key
      · simp [hk]
      · simp [hk, Ne.symm hk]
    have hv : (entries.filter fun x => x.1 == v.key) = signatures[v.key]?.toList.map fun s => (v.key, s) := by
      cases hsig : signatures[v.key]? with
      | none =>
        refine filter_eq_nil_iff.2 fun x hx he => ?_
        have hm := (hs v.key x.2).2 (eq_of_beq he ▸ hx)
        rw [hsig] at hm
        cases hm
      | some s =>
        have hmem := (hs v.key s).1 hsig
        have huniq : ∀ x ∈ entries, (x.1 == v.key) = (x == (v.key, s)) := by
          intro x hx
          refine Bool.eq_iff_iff.2 ⟨fun he => ?_, fun he => ?_⟩
          · exact beq_iff_eq.2 (inj_on_of_nodup_map hn hx hmem (eq_of_beq he))
          · rw [eq_of_beq he, beq_self_eq_true]
        rw [filter_congr huniq, filter_beq, count_eq_one_of_mem (.of_map _ hn) hmem]
        rfl
    have hevent : ([CodeEvent.localVariable ⟨v.name, v.descriptor, signatures[v.key]?, labelAt raw.labels v.start,
        labelAt raw.labels v.stop, v.index⟩].filterMap Body.localVariable?).filterMap LocalVariable.signed?
        = signatures[v.key]?.toList.map fun s => (raw.labelledKey v.key, s) := by
      rw [labelledKey, RawVariable.key, UInt16.add_comm, UInt16.sub_add_cancel]
      cases signatures[(v.start, v.stop - v.start, v.index, v.name)]? <;> rfl
    rw [variableEvents]
    refine (ih (hn.sublist (filter_sublist.map _)) hrest _).trans ?_
    rw [reverse_cons, filterMap_append, filterMap_append, append_assoc]
    refine Perm.append_left _
      (Perm.trans (.of_eq ?_) ((filter_cons_perm Prod.fst entries v.key (vs.map RawVariable.key)).map _))
    rw [map_append, hv, map_map]
    exact congrArg (· ++ _) hevent

theorem signatures_perm (h : raw.events = .ok code) : (Body.ofEvents code).localVariables.filterMap LocalVariable.signed?
    ~ ((lastSignatures raw.signatures).filter fun x => decide (x.1 ∈ raw.locals.map RawVariable.key)).map
      fun x => (raw.labelledKey x.1, x.2) := by
  have hn : ((lastSignatures raw.signatures).map Prod.fst).Nodup := pairwise_map.2 (pairwise_pwFilter _)
  rw [(ofEvents_parts h).2.1]
  exact signed?_variableEvents hn (fun _ _ => getElem?_signaturesOf) []

end RawCode

/-! ## A line at the end of code -/

namespace LateLine

def view : PoolView := { entries := #[none, some (.utf8 (.ofString "LineNumberTable"))] }

/-- Code that returns, with line 7 at its end. -/
def code : Bytes := [0, 0, 0, 0, 0, 0, 0, 1, 177, 0, 0, 0, 1, 0, 1, 0, 0, 0, 6, 0, 1, 0, 1, 0, 7]

def insns : List (UInt16 × Insn UInt16) := [(0, .simple 177)]

def table : AttributeRead CodePart := ⟨"LineNumberTable", 6, ⟨[0, 1, 0, 1, 0, 7], 19⟩, some (.lines [(1, 7)])⟩

/-- The code as it is read. -/
def read : CodeRead view { rest := code } where
  maxStack := 0
  maxLocals := 0
  length := 1
  bytes := [177]
  insns
  tryCatches := []
  attributes := [table]
  handlers := ⟨[0, 0, 0, 1, 0, 1, 0, 0, 0, 6, 0, 1, 0, 1, 0, 7], 9⟩
  tables := ⟨[0, 1, 0, 1, 0, 0, 0, 6, 0, 1, 0, 1, 0, 7], 11⟩
  stop := ⟨[], 25⟩
  decodes := rfl
  decodesInsns := rfl
  decodesHandlers := rfl
  readsTables := ⟨1, _, rfl, rfl, .cons ⟨_, 6, rfl, rfl, rfl, [], [], rfl, rfl⟩ .nil⟩
  ascending := @ascending_of_decodeInsns insns view [177] (by decide) rfl

theorem events_raw : read.raw.events = .ok [.insn (.simple 177), .label ⟨0⟩, .maxs 0 0] := by
  cbv

theorem exists_readCode : ∃ new, readCode view ({ rest := code }, []) = .ok () (read.stop, new) ∧
    eventsIn new = [.insn (.simple 177), .label ⟨0⟩, .maxs 0 0].map ClassEvent.code := by
  have hraw : Consumes (readRawCode view) code [] (· = read.raw) := fun _ _ _ => ⟨read.raw, [], rfl, rfl, rfl⟩
  obtain ⟨_, new, hn, -, he⟩ := hraw.readCode events_raw [] 0 []
  rw [append_nil, append_nil] at hn
  exact ⟨new, hn, he⟩

end LateLine

/-- **Of the debug tables of code, lines at its end and signatures without a variable are lost, and of several signatures
of a variable all but the last one.** The other entries are kept once, with the labels of their positions. -/
theorem readCode_debugTables {items : List TraceItem} {u : Unit} {s : Input × List TraceItem}
    (h : readCode pool (i, items) = .ok u s) :
    ∃ (c : CodeRead pool i) (code : List CodeEvent) (new : List TraceItem),
      s = (c.stop, new ++ items) ∧ eventsIn new = code.map .code ∧
      (∀ l ∈ c.lineEntries, (c.raw.labels[l.1]?).isSome = true) ∧
      (∀ v ∈ c.variableEntries, (c.raw.labels[v.start]?).isSome = true ∧ (c.raw.labels[v.stop]?).isSome = true) ∧
      ((Body.ofEvents code).lineNumbers ~ (c.lineEntries.filter fun l => l.1 ≠ c.length.toUInt16).map
        fun l => (l.2, RawCode.labelAt c.raw.labels l.1)) ∧
      ((Body.ofEvents code).localVariables.filterMap LocalVariable.signed? ~
        ((RawCode.lastSignatures c.signatureEntries).filter fun x => x.1 ∈ c.variableEntries.map RawVariable.key).map
          fun x => (c.raw.labelledKey x.1, x.2)) := by
  obtain ⟨new, hn, c, code, hc, he, hes⟩ := gives_readCode pool i items u s h
  have hlocals : ∀ v ∈ c.variableEntries, ∀ o ∈ [v.start, v.stop], o ∈ c.raw.references := by
    intro v hv o ho
    simp only [RawCode.references, c.locals_raw, mem_append, mem_flatMap]
    exact .inl (.inr ⟨v, hv, ho⟩)
  refine ⟨c, code, new, Prod.ext hc.symm hn, hes, fun l hl => ?_, fun v hv => ?_, ?_, ?_⟩
  · exact RawCode.isSome_labels (RawCode.mem_references_of_line (c.lines_raw ▸ hl))
  · exact ⟨RawCode.isSome_labels (hlocals v hv _ (by simp)), RawCode.isSome_labels (hlocals v hv _ (by simp))⟩
  · exact c.lines_raw ▸ RawCode.lineNumbers_perm he c.ascending
  · exact c.signatures_raw ▸ c.locals_raw ▸ RawCode.signatures_perm he

theorem readCode_debugTables_late : ∃ new,
    readCode LateLine.view ({ rest := LateLine.code }, []) = .ok () (LateLine.read.stop, new) ∧
    ∃ (c : CodeRead LateLine.view { rest := LateLine.code }) (code : List CodeEvent), eventsIn new = code.map .code ∧
      ((Body.ofEvents code).lineNumbers ~ (c.lineEntries.filter fun l => l.1 ≠ c.length.toUInt16).map
        fun l => (l.2, RawCode.labelAt c.raw.labels l.1)) := by
  obtain ⟨new, h, -⟩ := LateLine.exists_readCode
  obtain ⟨c, code, new', hs, he, -, -, hl, -⟩ := readCode_debugTables h
  obtain rfl : new = new' := by simpa using (Prod.mk.inj hs).2
  exact ⟨new, h, c, code, he, hl⟩

/-- The table has a line at the end of the code, and no event has it. -/
theorem readCode_lateLine : ∃ new,
    readCode LateLine.view ({ rest := LateLine.code }, []) = .ok () (LateLine.read.stop, new) ∧
    (1, 7) ∈ LateLine.read.lineEntries ∧ ∀ line l, .code (.lineNumber line l) ∉ eventsIn new := by
  obtain ⟨new, h, he⟩ := LateLine.exists_readCode
  exact ⟨new, h, .head _, by simp [he]⟩

end ClassDoc
