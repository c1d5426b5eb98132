/-
  What runs do to the files around them.

  The names that a path stands for on a disk are `Disk.place`. Making directories changes no file, and writing one changes no
  other. So a run changes no files but those below its output, as long as the paths it pushes onto the output descend.
-/
import ClassDoc.Command.Run
import ClassDoc.Files.Tree
import ClassDoc.Proofs.Batch
import ClassDoc.Proofs.ClassFile.Writer
import ClassDoc.Proofs.Files.Path
namespace ClassDoc

open List

/-! ## Trees -/

namespace FileTree

def contentAt? (t : FileTree) (names : List String) : Option Bytes := (t.get? names).bind content?

@[simp] theorem get?_nil (t : FileTree) : t.get? [] = some t := by rw [get?]

theorem get?_cons (t : FileTree) (name : String) (rest : List String) :
    t.get? (name :: rest) = (t.entry? name).bind fun inner => inner.get? rest := by
  rw [get?]
  cases t.entry? name <;> rfl

theorem get?_append (t : FileTree) (xs ys : List String) :
    t.get? (xs ++ ys) = (t.get? xs).bind fun inner => inner.get? ys := by
  induction xs generalizing t with
  | nil => simp
  | cons x xs ih => cases h : t.entry? x <;> simp [get?_cons, h, ih]

@[simp] theorem entry?_empty (name : String) : entry? (directory []) name = none := rfl

theorem contentAt?_empty (names : List String) : (directory []).contentAt? names = none := by
  cases names <;> simp [contentAt?, get?_cons, content?]

theorem lookup_setEntry (name other : String) (inner : FileTree) (entries : List (String × FileTree)) :
    (setEntry name inner entries).lookup other = if other = name then some inner else entries.lookup other := by
  have hb : ∀ {a b : String}, a ≠ b → (a == b) = false := beq_eq_false_iff_ne.2
  induction entries with
  | nil => by_cases h : other = name <;> simp [setEntry, lookup_cons, h, hb]
  | cons e entries ih =>
    obtain ⟨n, t⟩ := e
    rw [setEntry]
    by_cases hn : n = name
    · subst hn
      by_cases h : other = n <;> simp [lookup_cons, h, hb]
    · by_cases h : other = n
      · simp [h, hn]
      · simp [lookup_cons, hn, h, hb, ih]

def Clear (t : FileTree) (names : List String) : Prop :=
  ∀ front, front <+: names → front ≠ names → t.hasDirectory front = true

variable {t : FileTree} {names : List String}

theorem hasDirectory_of_isPrefix {front : List String} (h : t.hasDirectory names = true)
    (hp : front <+: names) : t.hasDirectory front = true := by
  obtain ⟨rest, rfl⟩ := hp
  cases rest with
  | nil => simpa using h
  | cons n rest =>
    simp only [hasDirectory, get?_append, get?_cons] at h ⊢
    cases hf : t.get? front with
    | none => simp [hf] at h
    | some inner => cases inner <;> simp_all [entries?, entry?, isDirectory]

theorem clear_of_hasDirectory (h : t.hasDirectory names = true) : t.Clear names :=
  fun _ hp _ => hasDirectory_of_isPrefix h hp

theorem clear_concat (h : t.hasDirectory names = true) (name : String) : t.Clear (names ++ [name]) := by
  intro front hp hne
  rcases prefix_concat_iff.1 hp with rfl | hp
  · exact absurd rfl hne
  · exact hasDirectory_of_isPrefix h hp

/-- **What is put somewhere changes no file elsewhere, if there is no file in the way.** -/
theorem contentAt?_put (new : FileTree) {place : List String} (hc : t.Clear place)
    (h : ¬ place <+: names) : (t.put new place).contentAt? names = t.contentAt? names := by
  induction place generalizing t names with
  | nil => simp at h
  | cons name rest ih =>
    have ht : t.isDirectory = true := by
      simpa [hasDirectory] using hc [] nil_prefix (by simp)
    obtain ⟨entries, rfl⟩ : ∃ entries, t = directory entries := by
      cases t with
      | file content => simp [isDirectory, entries?] at ht
      | directory entries => exact ⟨entries, rfl⟩
    cases names with
    | nil => simp [put, contentAt?, content?]
    | cons n names =>
      obtain ⟨old, hold⟩ : ∃ old, entry? (directory entries) name = old := ⟨_, rfl⟩
      have hs : entry? ((directory entries).put new (name :: rest)) n
          = if n = name then some ((old.getD (directory [])).put new rest) else entry? (directory entries) n := by
        simp [put, entry?, entries?, lookup_setEntry, ← hold]
      rw [contentAt?, contentAt?, get?_cons, get?_cons, hs]
      split
      next hn =>
        subst hn
        have hr : ¬ rest <+: names := fun hr => h (cons_prefix_cons.2 ⟨rfl, hr⟩)
        rw [hold]
        cases old with
        | none =>
          have hcr : (directory []).Clear rest := by
            intro front hf hne
            have := hc (n :: front) (cons_prefix_cons.2 ⟨rfl, hf⟩) (by simpa using hne)
            simp [hasDirectory, get?_cons, hold] at this
          exact (ih hcr hr).trans (contentAt?_empty names)
        | some inner =>
          have hcr : inner.Clear rest := by
            intro front hf hne
            have := hc (n :: front) (cons_prefix_cons.2 ⟨rfl, hf⟩) (by simpa using hne)
            simpa [hasDirectory, get?_cons, hold] using this
          exact ih hcr hr
      next => rfl

theorem get?_put_append (t new : FileTree) (place names : List String) :
    (t.put new place).get? (place ++ names) = new.get? names := by
  induction place generalizing t with
  | nil => simp [put]
  | cons name rest ih => simp [put, get?_cons, entry?, entries?, lookup_setEntry, ih]

end FileTree

/-! ## Disks -/

namespace Disk

open FileTree

def go (names : List String) (segment : String) : List String :=
  if segment = "" ∨ segment = "." then names
  else if segment = ".." then names.dropLast
  else names ++ [segment]

def place (disk : Disk) (path : String) : List String := (segments path).foldl go (disk.start path)

/-- The files are the same but for those below a place. -/
structure Keeps (place : List String) (before after : Disk) : Prop where
  current : after.current = before.current
  files : ∀ names, ¬ place <+: names → after.tree.contentAt? names = before.tree.contentAt? names

theorem Keeps.refl (place : List String) (disk : Disk) : Keeps place disk disk := ⟨rfl, fun _ _ => rfl⟩

variable {disk after : Disk} {path segment : String} {names names' : List String}

theorem Keeps.trans {place : List String} {a b c : Disk} (h : Keeps place a b) (h' : Keeps place b c) : Keeps place a c :=
  ⟨h'.current.trans h.current, fun names hn => (h'.files names hn).trans (h.files names hn)⟩

theorem Keeps.mono {place inner : List String} {a b : Disk} (h : Keeps inner a b) (hp : place <+: inner) :
    Keeps place a b :=
  ⟨h.current, fun names hn => h.files names fun hi => hn (hp.trans hi)⟩

theorem step_eq_some
    (h : disk.step names segment = some names') : names' = go names segment ∧ disk.tree.Clear names' := by
  rw [step] at h
  split at h
  · cases h
  next hd =>
    replace hd : disk.tree.hasDirectory names = true := by simpa using hd
    rw [go]
    split at h
    next hs => cases h; simp [hs, clear_of_hasDirectory hd]
    next hs =>
      rw [if_neg hs]
      split at h
      next hs =>
        cases h
        exact ⟨by simp [hs], clear_of_hasDirectory (hasDirectory_of_isPrefix hd <| dropLast_prefix _)⟩
      next hs' =>
        rw [if_neg hs']
        split at h
        · cases h; exact ⟨rfl, clear_concat hd _⟩
        · cases h

theorem foldlM_step {segments : List String} (hs : segments ≠ [])
    (h : segments.foldlM disk.step names = some names') : names' = segments.foldl go names ∧ disk.tree.Clear names' := by
  induction segments generalizing names with
  | nil => simp at hs
  | cons s segments ih =>
    rw [foldlM_cons] at h
    obtain ⟨next, hn, h⟩ := Option.bind_eq_some_iff.1 h
    obtain ⟨rfl, hc⟩ := step_eq_some hn
    cases segments with
    | nil => cases h; exact ⟨rfl, hc⟩
    | cons s' segments => exact ih (by simp) h

theorem segments_ne_nil (path : String) : segments path ≠ [] := by simp [segments, splitOn_ne_nil]

/-- **Writing a file changes no other one.** -/
theorem keeps_write? {content : Bytes} (h : disk.write? path content = some after) :
    Keeps (disk.place path) disk after := by
  rw [write?] at h
  obtain ⟨names, hn, h⟩ := Option.bind_eq_some_iff.1 h
  obtain ⟨rfl, hc⟩ := foldlM_step (segments_ne_nil path) hn
  split at h
  · cases h
  · split at h
    · cases h
    · cases h
      exact ⟨rfl, fun _ hp => contentAt?_put _ hc hp⟩

theorem keeps_makeStep
    (h : makeStep (disk, names) segment = some (after, names')) (place : List String) : Keeps place disk after := by
  rw [makeStep] at h
  obtain ⟨inner, hn, h⟩ := Option.bind_eq_some_iff.1 h
  obtain ⟨-, hc⟩ := step_eq_some hn
  split at h
  next t ht =>
    split at h
    · cases h; exact .refl place disk
    · cases h
  next ht =>
    cases h
    refine ⟨rfl, fun p _ => ?_⟩
    by_cases hp : names' <+: p
    · obtain ⟨rest, rfl⟩ := hp
      rw [contentAt?, get?_put_append, contentAt?, get?_append, ht]
      exact contentAt?_empty rest
    · exact contentAt?_put _ hc hp

theorem keeps_foldlM_makeStep {segs : List String}
    (h : segs.foldlM makeStep (disk, names) = some (after, names')) (place : List String) :
    Keeps place disk after := by
  induction segs generalizing disk names with
  | nil => cases h; exact .refl place _
  | cons s segs ih =>
    rw [foldlM_cons] at h
    obtain ⟨⟨next, _⟩, hn, h⟩ := Option.bind_eq_some_iff.1 h
    exact (keeps_makeStep hn place).trans (ih h)

/-- **Making directories changes no file.** -/
theorem keeps_createDirectories? (h : disk.createDirectories? path = some after)
    (place : List String) : Keeps place disk after := by
  rw [createDirectories?] at h
  split at h
  · cases h; exact .refl place disk
  · obtain ⟨⟨next, _⟩, hn, h⟩ := Option.bind_eq_some_iff.1 h
    cases h
    exact keeps_foldlM_makeStep hn place

/-! ## Places -/

theorem place_of_current (h : after.current = disk.current) (path : String) : after.place path = disk.place path := by
  rw [place, place, start, start, h]

theorem prefix_foldl_go {segments : List String} (h : ".." ∉ segments) (names : List String) :
    names <+: segments.foldl go names := by
  induction segments generalizing names with
  | nil => exact prefix_rfl
  | cons s segments ih =>
    rw [mem_cons, not_or] at h
    refine List.IsPrefix.trans ?_ (ih h.2 (go names s))
    rw [go, if_neg (Ne.symm h.1)]
    split
    · exact prefix_rfl
    · exact prefix_append _ _

/-- **A path that descends stands for a place below that of the path it is pushed onto.** -/
theorem place_push (h : Path.Descends path) (output : String) :
    disk.place output <+: disk.place (Path.push output path) := by
  obtain ⟨hh, hp⟩ := Path.descends_iff.1 h
  have hd : ".." ∉ segments path := by
    intro hm
    obtain ⟨p, hm, he⟩ := mem_map.1 hm
    rw [← String.toList_ofList (l := p), he] at hm
    exact hp hm
  by_cases ho : output = ""
  · subst ho
    have hs : disk.place "" = disk.current := rfl
    have hp : Path.push "" path = path := by simp [Path.push, hh]
    have hc : disk.place path = (segments path).foldl go disk.current := by simp [place, start, hh]
    rw [hs, hp, hc]
    exact prefix_foldl_go hd _
  · obtain ⟨front, hf, ht⟩ := Path.exists_toList_push ho hh
    have hstart : disk.start (Path.push output path) = disk.start output := by
      rw [start, start, Path.head?_push ho hh]
    have hsegs : segments (Path.push output path) = segments (String.ofList front) ++ segments path := by
      simp [segments, ht, splitOn_append_cons]
    have hplace : disk.place output = (segments (String.ofList front)).foldl go (disk.start output) := by
      rcases hf with hf | hf
      · rw [place, ← hf, String.ofList_toList]
      · simp [place, segments, hf, splitOn_append_cons, go]
    rw [hplace, place, hstart, hsegs, foldl_append]
    exact prefix_foldl_go hd _

end Disk

/-! ## Runs -/

namespace Request

open Disk

/-- `x` leaves the disk as it is outside of the place. -/
def Leaves {α : Type} (place : List String) (x : ExceptT Fault (StateM Disk) α) (disk : Disk) : Prop :=
  Keeps place disk (x.run disk).2

variable {α β : Type} {place : List String} {disk : Disk}

theorem state_bind (x : StateM Disk α) (f : α → StateM Disk β) : (x >>= f) disk = f (x disk).1 (x disk).2 := rfl

theorem Leaves.pure (a : α) : Leaves place (pure a) disk := .refl place disk

theorem Leaves.throw (f : Fault) : Leaves place (throw f : ExceptT Fault (StateM Disk) α) disk := .refl place disk

variable {r : Request} {f : α → ExceptT Fault (StateM Disk) β} {outcomes : List Batch.Outcome} {xs : List α}
  {after : Disk}

theorem Leaves.bind {x : ExceptT Fault (StateM Disk) α}
    (hx : Leaves place x disk) (hf : ∀ a after, Keeps place disk after → Leaves place (f a) after) :
    Leaves place (x >>= f) disk := by
  have hb : (x >>= f).run disk = ExceptT.bindCont f (x.run disk).1 (x.run disk).2 := rfl
  rw [Leaves, hb]
  rw [Leaves] at hx
  cases (x.run disk).1 with
  | ok a => exact hx.trans (hf a _ hx)
  | error e => exact hx

theorem Leaves.worked {c : Cause} {access : StateM Disk Bool} (h : Keeps place disk (access disk).2) :
    Leaves place (worked c access) disk := by
  refine Leaves.bind h fun a after _ => ?_
  cases a
  · exact .throw _
  · exact .pure _

theorem keeps_update {change : Disk → Option Disk} (h : ∀ after, change disk = some after → Keeps place disk after) :
    Keeps place disk (update change disk).2 := by
  rw [update]
  cases hc : change disk with
  | none => exact .refl place disk
  | some after => exact h after hc

theorem Leaves.found {c : Cause} {access : StateM Disk (Option α)} (h : (access disk).2 = disk) :
    Leaves place (found c access) disk := by
  have hk : Keeps place disk (access disk).2 := by rw [h]; exact .refl place disk
  refine Leaves.bind hk fun a after _ => ?_
  cases a
  · exact .throw _
  · exact .pure _

theorem Leaves.forM {f : α → ExceptT Fault (StateM Disk) PUnit}
    (h : ∀ x ∈ xs, ∀ after, Keeps place disk after → Leaves place (f x) after) : Leaves place (xs.forM f) disk := by
  induction xs generalizing disk with
  | nil => exact .pure _
  | cons x xs ih =>
    refine .bind (h x (by simp) disk (.refl place disk)) fun _ after hk => ?_
    exact ih fun y hy after' hk' => h y (by simp [hy]) after' (hk.trans hk')

theorem Leaves.mapM (h : ∀ x ∈ xs, ∀ after, Leaves place (f x) after) : Leaves place (xs.mapM f) disk := by
  induction xs generalizing disk with
  | nil => exact .pure _
  | cons x xs ih =>
    rw [mapM_cons]
    refine .bind (h x (by simp) disk) fun _ after _ => .bind ?_ fun _ _ _ => .pure _
    exact ih fun y hy => h y (by simp [hy])

theorem leaves_outcomes (r : Request) : Leaves place (r.outcomes Disk.system) disk := by
  refine .bind (.found rfl) fun files _ _ => .bind (.mapM fun id _ _ => ?_) fun _ _ _ => .pure _
  exact .bind (.found rfl) fun _ _ _ => .pure _

theorem leaves_storeArtifact {artifact : Artifact}
    (h : Path.Descends (r.direction.outputPath artifact.className)) (hp : disk.place r.output = place) :
    Leaves place (r.storeArtifact Disk.system artifact) disk := by
  have hw : ∀ after, Keeps place disk after → ∀ c, Leaves place
      (worked c (system.write (Path.push r.output (r.direction.outputPath artifact.className)) artifact.content))
      after := by
    refine fun after hk c => .worked (keeps_update fun _ hc => (keeps_write? hc).mono ?_)
    rw [← hp, ← place_of_current hk.current r.output]
    exact place_push h r.output
  simp only [storeArtifact]
  split
  · exact .bind (.worked (keeps_update fun _ hc => keeps_createDirectories? hc _)) fun _ after hk => hw after hk _
  · exact hw disk (.refl place disk) _

theorem leaves_store (hr : r.report = none) (h : ∀ o ∈ outcomes, ∀ artifact, o.result.value = .ok artifact →
      Path.Descends (r.direction.outputPath artifact.className))
    (hp : disk.place r.output = place) : Leaves place (r.store Disk.system outcomes) disk := by
  simp only [store, hr]
  refine .bind (.forM fun o ho after hk => ?_) fun _ after hk => ?_
  · split
    next artifact ha => exact leaves_storeArtifact (h o ho artifact ha) ((place_of_current hk.current _).trans hp)
    next => exact .pure _
  · split
    · exact .throw _
    · exact .pure _

theorem run_of_error {f : Fault}
    (h : (r.outcomes Disk.system).run disk = (.error f, after)) : r.run Disk.system disk = (.of (.error f), after) := by
  rw [run, state_bind, h]
  rfl

theorem run_of_ok (h : (r.outcomes Disk.system).run disk = (.ok outcomes, after)) : r.run Disk.system disk
      = (⟨((r.store Disk.system outcomes).run after).1, Batch.warnings outcomes⟩,
        ((r.store Disk.system outcomes).run after).2) := by
  rw [run, state_bind, h]
  rfl

/-- **A run without a report changes no files but those below its output, if all the paths of the files it makes
descend.** -/
theorem keeps_run (hr : r.report = none)
    (h : ∀ outcomes, ((r.outcomes Disk.system).run disk).1 = .ok outcomes → ∀ o ∈ outcomes, ∀ artifact,
      o.result.value = .ok artifact → Path.Descends (r.direction.outputPath artifact.className)) :
    Keeps (disk.place r.output) disk (r.run Disk.system disk).2 := by
  have ho : Leaves (disk.place r.output) (r.outcomes Disk.system) disk := leaves_outcomes r
  rw [Leaves] at ho
  obtain ⟨result, after, he⟩ : ∃ result after, (r.outcomes Disk.system).run disk = (result, after) := ⟨_, _, rfl⟩
  rw [he] at ho h
  cases result with
  | error f => rw [run_of_error he]; exact ho
  | ok outcomes =>
    rw [run_of_ok he]
    exact ho.trans (leaves_store hr (h outcomes rfl) (place_of_current ho.current _))

/-- **What a run makes stays below its output, except for class files of classes whose names lead elsewhere.** -/
theorem contained_run {r : Request} {outcomes : List Batch.Outcome}
    (ho : ((r.outcomes Disk.system).run disk).1 = .ok outcomes) :
    (∀ o ∈ outcomes, ∀ artifact, o.result.value = .ok artifact →
      (Path.Descends (r.direction.outputPath artifact.className) ↔
        (r.direction = .toBinary → Name.Contained artifact.className)) ∧
      (Path.Descends (r.direction.outputPath artifact.className) →
        Path.Below r.output (Path.push r.output (r.direction.outputPath artifact.className)))) ∧
    (r.report = none →
      (r.direction = .toBinary → ∀ o ∈ outcomes, ∀ artifact, o.result.value = .ok artifact →
        Name.Contained artifact.className) →
      Keeps (disk.place r.output) disk (r.run Disk.system disk).2) := by
  refine ⟨fun o _ artifact _ => ⟨Direction.descends_outputPath, fun h => h.below_push r.output⟩, fun hr hc => ?_⟩
  refine keeps_run hr fun outcomes' ho' o hmem artifact ha => ?_
  obtain rfl : outcomes = outcomes' := Except.ok.inj (ho.symm.trans ho')
  exact Direction.descends_outputPath.2 fun hd => hc hd o hmem artifact ha

end Request

/-! ## A class without members -/

namespace Bare

open Disk

def model (name : String) : ClassModel := { (default : ClassModel) with name, access := 33, version := ⟨52, 0⟩ }

def attributes (escaped : String) : List (String × String) :=
  [("schema", "1"), ("name", escaped), ("access", "33"), ("major", "52"), ("minor", "0")]

def text (escaped : String) : String :=
  "<class schema=\"1\" name=\"" ++ escaped ++ "\" access=\"33\" major=\"52\" minor=\"0\"/>"

/-- The request to make class files in `out` of the documents in `in`. -/
def request : Request := ⟨.toBinary, "in", "out", .collectAll, none⟩

def disk (content : Bytes) : Disk := .ofFiles [] [("in/a.xmir", content)]

theorem textOf?_textContent (s : String) : textOf? (textContent s) = some s := by
  have hv : (⟨s.toUTF8.data.toList.toArray⟩ : ByteArray) = s.toUTF8 := by simp
  rw [textOf?, textContent, hv, String.fromUTF8?]
  simp
  exact ⟨s.isValidUTF8, rfl⟩

def Reads (escaped : String) : Bool :=
  (Node.ofXml (text escaped)).toOption.any fun n =>
    n.kind = "class" ∧ n.attributes = attributes escaped ∧ n.children.isEmpty ∧ n.text = none

theorem ofXml_text {escaped : String} (h : Reads escaped = true) :
    Node.ofXml (text escaped) = .ok (.leaf "class" (attributes escaped)) := by
  rw [Reads] at h
  cases hd : Node.ofXml (text escaped) with
  | error f => simp [hd, Except.toOption] at h
  | ok n =>
    obtain ⟨kind, attrs, children, text⟩ := n
    simp_all [Except.toOption, Node.leaf]

theorem run_bind_of_ok {α β : Type} {x : ExceptT Fault (StateM Disk) α} {f : α → ExceptT Fault (StateM Disk) β}
    {before after : Disk} {a : α} (h : x.run before = (.ok a, after)) : (x >>= f).run before = (f a).run after := by
  have hb : (x >>= f).run before = ExceptT.bindCont f (x.run before).1 (x.run before).2 := rfl
  rw [hb, h]
  rfl

theorem run_lift_of_eq {α : Type} {access : StateM Disk α} {before after : Disk} {a : α} (h : access before = (a, after)) :
    (liftM access : ExceptT Fault (StateM Disk) α).run before = (.ok a, after) := by
  have hl : (liftM access : ExceptT Fault (StateM Disk) α).run before = (.ok (access before).1, (access before).2) := rfl
  rw [hl, h]

theorem found_of_some {α : Type} {c : Cause} {access : StateM Disk (Option α)} {before after : Disk} {a : α}
    (h : access before = (some a, after)) : (Request.found c access).run before = (.ok a, after) :=
  run_bind_of_ok (run_lift_of_eq h)

theorem worked_of_true {c : Cause} {access : StateM Disk Bool} {before after : Disk}
    (h : access before = (true, after)) : (Request.worked c access).run before = (.ok (), after) :=
  run_bind_of_ok (run_lift_of_eq h)

theorem outcomes_disk (escaped name : String) (hx : Reads escaped = true)
    (hn : ClassModel.ofNode (.leaf "class" (attributes escaped)) = .ok (model name))
    (hw : ∃ bytes, writeModel (model name) = .ok bytes) :
    ∃ bytes, (request.outcomes Disk.system).run (disk (textContent (text escaped)))
      = (.ok [⟨0, "a.xmir", .of (.ok ⟨name, bytes⟩)⟩], disk (textContent (text escaped))) := by
  obtain ⟨bytes, hb⟩ := hw
  have hc : Direction.binary (textContent (text escaped)) = .ok ⟨name, bytes⟩ := by
    simp only [Direction.binary, textOf?_textContent, ofXml_text hx, assembleClass, hn, hb, ok_bind, within_ok]
    rfl
  have hr : (request.outcomes Disk.system).run (disk (textContent (text escaped)))
      = (.ok (Batch.run .toBinary .collectAll [("a.xmir", textContent (text escaped))]),
        disk (textContent (text escaped))) := by
    generalize textContent (text escaped) = content
    have hf : (FileTree.directory [("a.xmir", .file content)]).files = [("a.xmir", content)] := by
      simp [FileTree.files, FileTree.filesOf, FileTree.childPath]
    have hw : Disk.system.walk request.input (disk content) = (some ["a.xmir"], disk content) := by
      have h : (disk content).get? request.input = some (.directory [("a.xmir", .file content)]) := rfl
      have hs : Disk.system.walk request.input (disk content)
        = (((disk content).get? request.input).map fun t => t.files.map Prod.fst, disk content) := rfl
      rw [hs, h, Option.map_some, hf]
      rfl
    have hs : ["a.xmir"].filter request.selects = ["a.xmir"] := by decide +kernel
    rw [Request.outcomes, run_bind_of_ok (found_of_some hw), hs, mapM_cons]
    rfl
  refine ⟨bytes, hr.trans ?_⟩
  rw [Batch.run_collectAll]
  simp [Batch.outcomes, Batch.alone, Direction.convert, Report.of, hc]

/-- The class file of the class `x` is written below the output. -/
theorem contained_run_bare : ∃ bytes,
    ((request.outcomes Disk.system).run (disk (textContent (text "x")))).1
      = .ok [⟨0, "a.xmir", .of (.ok ⟨"x", bytes⟩)⟩] ∧
    Path.Below "out" (Path.push "out" (Direction.toBinary.outputPath "x")) ∧
    Keeps ["out"] (disk (textContent (text "x"))) (request.run Disk.system (disk (textContent (text "x")))).2 := by
  obtain ⟨bytes, h⟩ := outcomes_disk "x" "x" (by decide +kernel) rfl (exists_eq_ok.2 (by cbv))
  have hc : Name.Contained "x" := by decide +kernel
  obtain ⟨hb, hk⟩ := Request.contained_run (congrArg Prod.fst h)
  refine ⟨bytes, congrArg Prod.fst h, ?_, ?_⟩
  · obtain ⟨hd, hb⟩ := hb _ (mem_singleton_self _) _ rfl
    exact hb (hd.2 fun _ => hc)
  · refine hk rfl fun _ o ho artifact ha => ?_
    rw [mem_singleton.1 ho] at ha
    cases ha
    exact hc

/-- The class file of the class `../x`, which is `_o_o.x` in the document, is written beside the output. -/
theorem escaping_run_bare : ∃ bytes,
    ((request.outcomes Disk.system).run (disk (textContent (text "_o_o.x")))).1
      = .ok [⟨0, "a.xmir", .of (.ok ⟨"../x", bytes⟩)⟩] ∧
    ¬ Path.Descends (Direction.toBinary.outputPath "../x") ∧
    (request.run Disk.system (disk (textContent (text "_o_o.x")))).2.tree.contentAt? ["x.class"] = some bytes := by
  obtain ⟨bytes, h⟩ := outcomes_disk "_o_o.x" "../x" (by decide +kernel) rfl (exists_eq_ok.2 (by cbv))
  refine ⟨bytes, congrArg Prod.fst h, by decide +kernel, ?_⟩
  rw [Request.run_of_ok h]
  generalize textContent (text "_o_o.x") = content
  have hp : Path.parent? (Path.push request.output (request.direction.outputPath "../x")) = some "out/.." := by
    decide +kernel
  let inputs : String × FileTree := ("in", .directory [("a.xmir", .file content)])
  have hm : Disk.system.createDirectories "out/.." (disk content)
      = (true, ⟨.directory [inputs, ("out", .directory [])], []⟩) := rfl
  have hw : Disk.system.write "out/../x.class" bytes ⟨.directory [inputs, ("out", .directory [])], []⟩
      = (true, ⟨.directory [inputs, ("out", .directory []), ("x.class", .file bytes)], []⟩) := rfl
  have hs : (request.storeArtifact Disk.system ⟨"../x", bytes⟩).run (disk content)
      = (.ok (), ⟨.directory [inputs, ("out", .directory []), ("x.class", .file bytes)], []⟩) := by
    simp only [Request.storeArtifact, hp]
    exact (run_bind_of_ok (worked_of_true hm)).trans (worked_of_true hw)
  have hr : (request.store Disk.system [⟨0, "a.xmir", .of (.ok ⟨"../x", bytes⟩)⟩]).run (disk content)
      = (.ok (), ⟨.directory [inputs, ("out", .directory []), ("x.class", .file bytes)], []⟩) :=
    run_bind_of_ok (run_bind_of_ok hs)
  simp only [hr]
  rfl

end Bare

end ClassDoc
