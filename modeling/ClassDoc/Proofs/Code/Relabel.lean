/-
  Replacing labels.
-/
import ClassDoc.Proofs.Fault
namespace ClassDoc

open List

variable {L M N : Type} {f g : L → M} {k : L → Except Fault M}

theorem idRun_mapM {α β : Type} {x : α → Id β} {f : α → β} (h : ∀ a, Id.run (x a) = f a) (xs : List α) :
    Id.run (xs.mapM x) = xs.map f := by
  induction xs with
  | nil => rfl
  | cons a xs ih =>
    rw [mapM_cons, map_cons, ← h a, ← ih]
    rfl

theorem mapM_eq_ok_map {α β : Type} {x : α → Except Fault β} {y : α → β} {as : List α} {bs : List β}
    (h : as.mapM x = .ok bs) (hy : ∀ a b, x a = .ok b → y a = b) : as.map y = bs := by
  rw [mapM_eq_ok_iff] at h
  rw [← forall₂_eq_eq_eq, forall₂_map_left_iff]
  exact h.imp hy

/-! ## Instructions -/

namespace Insn

def map (f : L → M) (i : Insn L) : Insn M := Id.run (i.mapLabels f)

variable (op : Opcode)

@[simp] theorem map_simple : (simple op).map f = simple op := rfl

@[simp] theorem map_int (v : Int32) : (int op v).map f = int op v := rfl

@[simp] theorem map_var (n : UInt16) : (var op n).map f = var op n := rfl

@[simp] theorem map_type (n : String) : (type op n).map f = type op n := rfl

@[simp] theorem map_field (o n d : String) : (field op o n d).map f = field op o n d := rfl

@[simp] theorem map_method (o n d : String) (i : Bool) : (method op o n d i).map f = method op o n d i := rfl

@[simp] theorem map_invokeDynamic (n d : String) (b : Handle) (as : List Constant) :
    (invokeDynamic n d b as).map f = invokeDynamic n d b as := rfl

@[simp] theorem map_jump (t : L) : (jump op t).map f = jump op (f t) := rfl

@[simp] theorem map_ldc (c : Constant) : (ldc c).map f = ldc c := rfl

@[simp] theorem map_iinc (n : UInt16) (v : Int16) : (iinc n v).map f = iinc n v := rfl

@[simp] theorem map_tableSwitch (l h : Int32) (d : L) (ts : List L) :
    (tableSwitch l h d ts).map f = tableSwitch l h (f d) (ts.map f) :=
  congrArg (tableSwitch l h (f d)) (idRun_mapM (fun _ => rfl) ts)

@[simp] theorem map_lookupSwitch (d : L) (ps : List (Int32 × L)) :
    (lookupSwitch d ps).map f = lookupSwitch (f d) (ps.map fun p => (p.1, f p.2)) :=
  congrArg (lookupSwitch (f d)) (idRun_mapM (fun _ => rfl) ps)

@[simp] theorem map_multiANewArray (d : String) (n : UInt8) : (multiANewArray d n).map f = multiANewArray d n := rfl

theorem map_congr {i : Insn L} (h : ∀ l ∈ i.targets, f l = g l) : i.map f = i.map g := by
  cases i with
  | jump | tableSwitch => simp_all [targets]
  | lookupSwitch d ps =>
    simp only [targets, forall_mem_cons, forall_mem_map] at h
    simp only [map_lookupSwitch, h.1, lookupSwitch.injEq, true_and]
    exact map_congr_left fun p hp => by rw [h.2 p hp]
  | _ => rfl

theorem map_map (g : M → N) (i : Insn L) : (i.map f).map g = i.map fun l => g (f l) := by
  cases i <;> simp

theorem map_id (i : Insn L) : i.map (fun l => l) = i := by
  cases i <;> simp

theorem targets_map (i : Insn L) : (i.map f).targets = i.targets.map f := by
  cases i <;> simp [targets]

end Insn

/-! ## Frames -/

namespace VerificationType

def map (f : L → M) (t : VerificationType L) : VerificationType M := Id.run (t.mapLabels f)

theorem map_congr {t : VerificationType L} (h : ∀ l ∈ t.labels, f l = g l) : t.map f = t.map g := by
  cases t with
  | uninitialized l => exact congrArg uninitialized (h l (by simp [labels]))
  | _ => rfl

theorem map_map (g : M → N) (t : VerificationType L) : (t.map f).map g = t.map fun l => g (f l) := by
  cases t <;> rfl

theorem map_id (t : VerificationType L) : t.map (fun l => l) = t := by
  cases t <;> rfl

theorem labels_map (t : VerificationType L) : (t.map f).labels = t.labels.map f := by
  cases t <;> rfl

end VerificationType

namespace Frame

def map (f : L → M) (frame : Frame L) : Frame M :=
  ⟨frame.kind, frame.locals.map (VerificationType.map f), frame.stack.map (VerificationType.map f)⟩

variable (frame : Frame L)

theorem idRun_mapLabels : Id.run (frame.mapLabels f) = frame.map f := by
  have h : ∀ ts : List (VerificationType L), Id.run (ts.mapM (VerificationType.mapLabels f))
      = ts.map (VerificationType.map f) := idRun_mapM fun _ => rfl
  rw [map, ← h, ← h]
  rfl

theorem map_congr {frame : Frame L} (h : ∀ l ∈ frame.labels, f l = g l) : frame.map f = frame.map g := by
  simp only [labels, forall_mem_append, forall_mem_flatMap] at h
  unfold map
  congr 1
  · exact map_congr_left fun t ht => VerificationType.map_congr fun l hl => h.1 t ht l hl
  · exact map_congr_left fun t ht => VerificationType.map_congr fun l hl => h.2 t ht l hl

theorem map_map (g : M → N) (frame : Frame L) : (frame.map f).map g = frame.map fun l => g (f l) := by
  simp [map, VerificationType.map_map]

theorem map_id : frame.map (fun l => l) = frame := by
  simp [map, map_congr_left fun t _ => VerificationType.map_id t]

theorem labels_map : (frame.map f).labels = frame.labels.map f := by
  simp [labels, map, flatMap_map, map_flatMap, VerificationType.labels_map]

end Frame

/-! ## Annotations on types -/

namespace TypeTarget

def map (f : L → M) : TypeTarget L → TypeTarget M
  | typeParameter index => typeParameter index
  | supertype index => supertype index
  | typeParameterBound parameter bound => typeParameterBound parameter bound
  | empty => empty
  | formalParameter index => formalParameter index
  | throws index => throws index
  | localVariable ranges => localVariable (ranges.map fun r => ⟨f r.start, f r.stop, r.index⟩)
  | .catch index => .catch index
  | offset label => offset (f label)
  | typeArgument label argument => typeArgument (f label) argument

theorem idRun_mapLabels (t : TypeTarget L) : Id.run (t.mapLabels f) = t.map f := by
  cases t with
  | localVariable rs => exact congrArg localVariable (idRun_mapM (fun _ => rfl) rs)
  | _ => rfl

variable {t : TypeTarget L} {t' : TypeTarget M}

theorem mapLabels_eq_ok (hk : ∀ l o, k l = .ok o → f l = o) (h : t.mapLabels k = .ok t') : t.map f = t' := by
  cases t with
  | localVariable rs =>
    obtain ⟨rs', hr, h⟩ := bind_eq_ok.1 h
    obtain rfl := Except.ok.inj h
    refine congrArg localVariable (mapM_eq_ok_map hr fun r r' h => ?_)
    obtain ⟨start, hs, h⟩ := bind_eq_ok.1 h
    obtain ⟨stop, ht, h⟩ := bind_eq_ok.1 h
    rw [hk _ _ hs, hk _ _ ht]
    exact Except.ok.inj h
  | offset l | typeArgument l _ =>
    obtain ⟨o, ho, h⟩ := bind_eq_ok.1 h
    rw [map, hk _ _ ho]
    exact Except.ok.inj h
  | _ => exact Except.ok.inj h

theorem exists_of_mapLabels (h : t.mapLabels k = .ok t') : ∀ l ∈ t.labels, ∃ o, k l = .ok o := by
  cases t with
  | localVariable rs =>
    obtain ⟨rs', hr, -⟩ := bind_eq_ok.1 h
    intro l hl
    obtain ⟨r, hrm, hl⟩ := mem_flatMap.1 hl
    obtain ⟨r', -, h⟩ := exists_of_mem_mapM hr hrm
    obtain ⟨start, hs, h⟩ := bind_eq_ok.1 h
    obtain ⟨stop, ht, -⟩ := bind_eq_ok.1 h
    rcases mem_pair.1 hl with rfl | rfl
    · exact ⟨start, hs⟩
    · exact ⟨stop, ht⟩
  | offset l | typeArgument l _ =>
    obtain ⟨o, ho, -⟩ := bind_eq_ok.1 h
    rintro l' hl
    obtain rfl := mem_singleton.1 hl
    exact ⟨o, ho⟩
  | _ => exact fun l hl => absurd hl not_mem_nil

theorem map_congr (h : ∀ l ∈ t.labels, f l = g l) : t.map f = t.map g := by
  cases t with
  | localVariable rs =>
    simp only [labels, forall_mem_flatMap, forall_mem_cons] at h
    exact congrArg localVariable (map_congr_left fun r hr => by rw [(h r hr).1, (h r hr).2.1])
  | offset | typeArgument => simp_all [map, labels]
  | _ => rfl

theorem map_map (g : M → N) (t : TypeTarget L) : (t.map f).map g = t.map fun l => g (f l) := by
  cases t <;> simp [map]

theorem map_id (t : TypeTarget L) : t.map (fun l => l) = t := by
  cases t <;> simp [map]

theorem labels_map (t : TypeTarget L) : (t.map f).labels = t.labels.map f := by
  cases t <;> simp [labels, map, flatMap_map, map_flatMap]

theorem form_map (t : TypeTarget L) : (t.map f).form = t.form := by
  cases t <;> rfl

theorem fits_map (f : L → M) (target : TypeTarget L) (t : UInt8) : (target.map f).fits t = target.fits t := by
  rw [fits, fits, form_map]

end TypeTarget

namespace TypeAnnotation

def map (f : L → M) (a : TypeAnnotation L) : TypeAnnotation M := ⟨a.targetType, a.target.map f, a.path, a.base⟩

theorem fits_map (f : L → M) (a : TypeAnnotation L) :
    (a.map f).target.fits (a.map f).targetType = a.target.fits a.targetType :=
  TypeTarget.fits_map f _ _

theorem idRun_mapLabels (a : TypeAnnotation L) : Id.run (a.mapLabels f) = a.map f := by
  rw [map, ← a.target.idRun_mapLabels]
  rfl

theorem mapLabels_eq_ok (hk : ∀ l o, k l = .ok o → f l = o) {a : TypeAnnotation L} {a' : TypeAnnotation M}
    (h : a.mapLabels k = .ok a') : a.map f = a' := by
  obtain ⟨t, ht, h⟩ := bind_eq_ok.1 h
  rw [map, TypeTarget.mapLabels_eq_ok hk ht]
  exact Except.ok.inj h

theorem map_map (g : M → N) (a : TypeAnnotation L) : (a.map f).map g = a.map fun l => g (f l) := by
  simp [map, TypeTarget.map_map]

theorem map_congr {a : TypeAnnotation L} (h : ∀ l ∈ a.target.labels, f l = g l) : a.map f = a.map g := by
  rw [map, map, TypeTarget.map_congr h]

theorem map_id (a : TypeAnnotation L) : a.map (fun l => l) = a := by
  rw [map, TypeTarget.map_id]

end TypeAnnotation

end ClassDoc
