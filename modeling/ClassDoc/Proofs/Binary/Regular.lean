/-
  Decoders that never fail because of a label, and to which it does not matter what comes behind the bytes that they take.
-/
import ClassDoc.ClassFile.Reader
import ClassDoc.Proofs.Binary.Decode
import ClassDoc.Proofs.Labels.Safe
namespace ClassDoc

variable {α β : Type}

/-- With more bytes at the end the same is decoded. -/
def Extends (d d' : Decode α) : Prop :=
  ∀ ⦃xs n a r m⦄ (ys), d ⟨xs, n⟩ = .ok (a, ⟨r, m⟩) → d' ⟨xs ++ ys, n⟩ = .ok (a, ⟨r ++ ys, m⟩)

/-- The decoder does not fail for labels, and does not care what follows. -/
structure Regular (d : Decode α) : Prop where
  safe : LabelSafe d
  extend : Extends d d

namespace Extends

variable {d d' : Decode α} {f f' : α → Decode β}

theorem bind (h : Extends d d') (hf : ∀ a, Extends (f a) (f' a)) : Extends (d >>= f) (d' >>= f') := by
  intro xs n b r m ys hb
  obtain ⟨a, j, ha, hb⟩ := decode_bind_eq_ok.1 hb
  exact decode_bind_eq_ok.2 ⟨a, _, h ys ha, hf a ys hb⟩

theorem inside (p : Place) (h : Extends d d') : Extends (Decode.inside p d) (Decode.inside p d') := by
  intro xs n a r m ys ha
  rw [Decode.inside, within_eq_ok] at ha ⊢
  exact h ys ha

theorem timesFrom (h : Extends d d') (count : Nat) (found : List α) :
    Extends (Decode.timesFrom d count found) (Decode.timesFrom d' count found) := by
  induction count generalizing found with
  | zero =>
    intro xs n a r m ys ha
    cases ha
    rfl
  | succ count ih =>
    rw [timesFrom_succ, timesFrom_succ]
    exact h.bind fun a => ih (a :: found)

end Extends

namespace Regular

variable {d : Decode α} {f : α → Decode β}

@[grind ←] theorem labelSafe (h : Regular d) : LabelSafe d := h.safe

@[grind ←] theorem lift {x : Except Fault α} (h : LabelSafe x) : Regular (liftM x : Decode α) := by
  refine ⟨.lift h, fun xs n a r m ys ha => ?_⟩
  cases x <;> cases ha
  rfl

@[grind ←] theorem pure (a : α) : Regular (Pure.pure a : Decode α) := lift (.ok a)

@[grind ←] theorem problem (p : ReadProblem) : Regular (Decode.problem p : Decode α) :=
  lift (x := .error (.read p)) (.error rfl)

@[grind ←] theorem bind (h : Regular d) (hf : ∀ a, Regular (f a)) : Regular (d >>= f) :=
  ⟨.bind h.safe fun a => (hf a).safe, h.extend.bind fun a => (hf a).extend⟩

@[grind ←] theorem inside (p : Place) (h : Regular d) : Regular (Decode.inside p d) := by
  refine ⟨fun f hf => ?_, h.extend.inside p⟩
  obtain ⟨s, hf⟩ := hf
  exact LabelSafe.within p (x := d s) (fun e he => h.safe e ⟨s, he⟩) f hf

/-! ## Numbers and lists -/

variable (number : String)

@[grind ←] theorem byteOf : Regular (Decode.byteOf number) := by
  constructor
  · rintro f ⟨⟨_ | ⟨a, rest⟩, n⟩, h⟩ <;> cases h
    rfl
  · rintro (_ | ⟨a, rest⟩) n _ _ _ ys h <;> cases h
    rfl

@[grind ←] theorem twoOf : Regular (Decode.twoOf number) := by
  constructor
  · rintro f ⟨⟨_ | ⟨a, _ | ⟨b, rest⟩⟩, n⟩, h⟩ <;> cases h <;> rfl
  · rintro (_ | ⟨a, _ | ⟨b, rest⟩⟩) n _ _ _ ys h <;> cases h
    rfl

@[grind ←] theorem fourOf : Regular (Decode.fourOf number) := by
  constructor
  · rintro f ⟨⟨_ | ⟨a, _ | ⟨b, _ | ⟨c, _ | ⟨d, rest⟩⟩⟩⟩, n⟩, h⟩ <;> cases h <;> rfl
  · rintro (_ | ⟨a, _ | ⟨b, _ | ⟨c, _ | ⟨d, rest⟩⟩⟩⟩) n _ _ _ ys h <;> cases h
    rfl

@[grind ←] theorem u1 : Regular Decode.u1 := byteOf _

@[grind ←] theorem u2 : Regular Decode.u2 := twoOf _

@[grind ←] theorem u4 : Regular Decode.u4 := fourOf _

@[grind ←] theorem i1 : Regular Decode.i1 := by grind [Decode.i1]

@[grind ←] theorem i2 : Regular Decode.i2 := by grind [Decode.i2]

@[grind ←] theorem i4 : Regular Decode.i4 := by grind [Decode.i4]

@[grind ←] theorem i8 : Regular Decode.i8 := by grind [Decode.i8, Decode.eightOf]

@[grind ←] theorem bytes (size : Nat) : Regular (Decode.bytes size) := by
  constructor
  · rintro f ⟨s, h⟩
    simp only [Decode.bytes] at h
    split at h <;> cases h
    rfl
  · intro xs n a r m ys h
    simp only [Decode.bytes, List.length_take] at h ⊢
    split at h <;> cases h
    next hs =>
    have hs : size ≤ xs.length := by omega
    rw [if_neg (by simp; omega), List.take_append_of_le_length hs, List.drop_append_of_le_length hs]

theorem timesFrom_safe (h : LabelSafe d) (count : Nat) (found : List α) : LabelSafe (Decode.timesFrom d count found) := by
  induction count generalizing found with
  | zero => exact .pure _
  | succ count ih =>
    rw [timesFrom_succ]
    exact .bind h fun a => ih (a :: found)

@[grind ←] theorem times (h : Regular d) (count : Nat) : Regular (Decode.times count d) :=
  ⟨timesFrom_safe h.safe count [], h.extend.timesFrom count []⟩

@[grind ←] theorem list (h : Regular d) : Regular (Decode.list d) := by grind [Decode.list]

@[grind ←] theorem shortList (h : Regular d) : Regular (Decode.shortList d) := by grind [Decode.shortList]

@[grind ←] theorem index {get : UInt16 → Except Fault α} (h : ∀ index, LabelSafe (get index)) :
    Regular (decodeIndex get) := by
  grind [decodeIndex]

@[grind ←] theorem pair (f : UInt16 → UInt16 → α) : Regular (decodePair f) := by grind [decodePair]

end Regular

/-! ## The pool -/

@[grind ←] theorem decodeText_safe (bytes : Bytes) : LabelSafe (decodeText bytes) := by grind [decodeText]

@[grind ←] theorem plainText_safe (t : JavaText) : LabelSafe (plainText t) := by grind [plainText]

theorem PoolEntry.decode_regular (index : Nat) : Regular (PoolEntry.decode index) := by
  refine .bind .u1 fun tag => ?_
  split <;> grind

namespace PoolView

theorem decodeEntries_regular (count fuel : Nat) (entries : Array (Option PoolEntry)) :
    Regular (decodeEntries count fuel entries) := by
  induction fuel generalizing entries with
  | zero => exact .pure _
  | succ fuel ih =>
    have he : decodeEntries count (fuel + 1) entries = if entries.size < count then
        PoolEntry.decode entries.size >>= fun entry => decodeEntries count fuel (push entries entry) else pure entries := by
      rw [decodeEntries]
      split
      · funext s
        rw [Decode.bind_apply]
        cases PoolEntry.decode entries.size s <;> rfl
      · rfl
    rw [he]
    split
    · exact .bind (PoolEntry.decode_regular _) fun entry => ih _
    · exact .pure _

theorem decode_regular : Regular decode := .bind .u2 fun _ => .bind (decodeEntries_regular _ _ _) fun _ => .pure _

variable (pool : PoolView) (index : UInt16)

@[grind ←] theorem entry_safe : LabelSafe (pool.entry index) := by grind [PoolView.entry]

@[grind ←] theorem notEntry_safe (expected : String) (entry : PoolEntry) :
    LabelSafe (notEntry expected entry : Except Fault α) :=
  .error rfl

@[grind ←] theorem optional_safe {get : UInt16 → Except Fault α} (h : ∀ index, LabelSafe (get index)) :
    LabelSafe (optional get index) := by grind [optional]

@[grind ←] theorem text_safe : LabelSafe (pool.text index) :=
  .bind (pool.entry_safe index) fun entry => by split <;> grind

@[grind ←] theorem utf8_safe : LabelSafe (pool.utf8 index) := by grind [PoolView.utf8]

@[grind ←] theorem classRef_safe : LabelSafe (pool.classRef index) :=
  .bind (pool.entry_safe index) fun entry => by split <;> grind

@[grind ←] theorem module_safe : LabelSafe (pool.module index) :=
  .bind (pool.entry_safe index) fun entry => by split <;> grind

@[grind ←] theorem package_safe : LabelSafe (pool.package index) :=
  .bind (pool.entry_safe index) fun entry => by split <;> grind

@[grind ←] theorem nameAndType_safe : LabelSafe (pool.nameAndType index) :=
  .bind (pool.entry_safe index) fun entry => by split <;> grind

@[grind ←] theorem memberRef_safe : LabelSafe (pool.memberRef index) := by
  have h : ∀ owner member interface, LabelSafe (pool.memberOf owner member interface) := by grind [PoolView.memberOf]
  exact .bind (pool.entry_safe index) fun entry => by split <;> grind

@[grind ←] theorem integer_safe : LabelSafe (pool.integer index) :=
  .bind (pool.entry_safe index) fun entry => by split <;> grind

@[grind ←] theorem long_safe : LabelSafe (pool.long index) :=
  .bind (pool.entry_safe index) fun entry => by split <;> grind

@[grind ←] theorem float_safe : LabelSafe (pool.float index) :=
  .bind (pool.entry_safe index) fun entry => by split <;> grind

@[grind ←] theorem double_safe : LabelSafe (pool.double index) :=
  .bind (pool.entry_safe index) fun entry => by split <;> grind

@[grind ←] theorem methodHandle_safe : LabelSafe (pool.methodHandle index) :=
  .bind (pool.entry_safe index) fun entry => by split <;> grind

theorem loadable_safe {bootstrap : UInt16 → Except Fault (Handle × List Constant)}
    (h : ∀ index, LabelSafe (bootstrap index)) :
    LabelSafe (pool.loadable bootstrap index) :=
  .bind (pool.entry_safe index) fun entry => by split <;> grind

@[grind ←] theorem bootstrapAt_safe (level : Nat) : LabelSafe (pool.bootstrapAt level index) := by
  induction level generalizing index with
  | zero => exact .error rfl
  | succ level ih =>
    rw [bootstrapAt]
    split
    · exact .error rfl
    · exact .bind (.mapM _ fun argument _ => .within _ (pool.loadable_safe argument ih)) fun _ => .pure _

@[grind ←] theorem constant_safe : LabelSafe (pool.constant index) :=
  pool.loadable_safe index fun index => pool.bootstrapAt_safe index _

@[grind ←] theorem invokeDynamic_safe : LabelSafe (pool.invokeDynamic index) := by
  have hb : ∀ index, LabelSafe (pool.bootstrap index) := fun index => pool.bootstrapAt_safe index _
  exact .bind (pool.entry_safe index) fun entry => by split <;> grind

@[grind ←] theorem constantValue_safe : LabelSafe (pool.constantValue index) :=
  .bind (pool.entry_safe index) fun entry => by split <;> grind

end PoolView

/-! ## Annotations -/

variable (pool : PoolView)

theorem Extends.nested {value value' : Decode ElementValue} (h : Extends value value') :
    Extends (decodeNested pool value) (decodeNested pool value') := by
  have hi : Regular (decodeIndex pool.utf8) := .index pool.utf8_safe
  have he := Regular.extend (.u2 : Regular Decode.u2)
  refine hi.extend.bind fun _ => .bind (.inside _ (he.bind fun count => .timesFrom ?_ _ [])) fun _ => (Regular.pure _).extend
  exact hi.extend.bind fun _ => h.bind fun _ => (Regular.pure _).extend

theorem ElementValue.extends_decode {fuel fuel' : Nat} (h : fuel ≤ fuel') :
    Extends (ElementValue.decode pool fuel) (ElementValue.decode pool fuel') := by
  induction fuel generalizing fuel' with
  | zero => exact fun _ _ _ _ _ _ ha => nomatch ha
  | succ fuel ih =>
    obtain ⟨fuel', rfl⟩ : ∃ n, fuel' = n + 1 := ⟨fuel' - 1, by omega⟩
    have ih := ih (Nat.le_of_succ_le_succ h)
    refine Regular.u1.extend.bind fun tag => ?_
    split
    all_goals try exact Regular.extend (by grind)
    · exact (ih.nested pool).bind fun a => (Regular.pure _).extend
    · exact .bind (Regular.u2.extend.bind fun count => ih.timesFrom _ []) fun a => (Regular.pure _).extend

theorem decodeNested_regular {value : Decode ElementValue} (h : Regular value) : Regular (decodeNested pool value) := by
  refine .bind (.index pool.utf8_safe) fun _ => .bind (.inside _ (.list ?_)) fun _ => .pure _
  exact .bind (.index pool.utf8_safe) fun _ => .bind h fun _ => .pure _

theorem ElementValue.decode_regular (fuel : Nat) : Regular (ElementValue.decode pool fuel) := by
  induction fuel with
  | zero => exact .problem _
  | succ fuel ih =>
    have hn := decodeNested_regular pool ih
    refine .bind .u1 fun tag => ?_
    split <;> grind

theorem Regular.bytesLeft {f : Nat → Decode α} (hs : ∀ fuel, Regular (f fuel))
    (he : ∀ fuel fuel', fuel ≤ fuel' → Extends (f fuel) (f fuel')) : Regular (ClassDoc.bytesLeft >>= f) := by
  constructor
  · rintro g ⟨s, h⟩
    exact (hs s.rest.length).safe g ⟨s, h⟩
  · exact fun xs n a r m ys h => he xs.length (xs ++ ys).length (by simp) ys h

@[grind ←] theorem decodeValue_regular : Regular (decodeValue pool) :=
  .bytesLeft (ElementValue.decode_regular pool) fun _ _ => ElementValue.extends_decode pool

@[grind ←] theorem decodeAnnotations_regular : Regular (decodeAnnotations pool) :=
  .bytesLeft (fun fuel => .list (decodeNested_regular pool (ElementValue.decode_regular pool fuel))) fun _ _ h =>
    Regular.u2.extend.bind fun _ => ((ElementValue.extends_decode pool h).nested pool).timesFrom _ []

@[grind ←] theorem checkOffset_safe (length offset : UInt16) : LabelSafe (checkOffset length offset) := by
  grind [checkOffset]

@[grind ←] theorem checkedOffset_safe (length : Option UInt16) (offset : UInt16) :
    LabelSafe (checkedOffset length offset) := by
  cases length <;> grind [checkedOffset]

@[grind ←] theorem rangeEnd_safe (start length : UInt16) : LabelSafe (rangeEnd start length) := by grind [rangeEnd]

@[grind ←] theorem decodeRange_regular (length : Option UInt16) : Regular (decodeRange length) := by
  refine .bind .u2 fun _ => .bind .u2 fun _ => .bind .u2 fun _ => ?_
  grind

@[grind ←] theorem TypeTarget.decode_regular (length : Option UInt16) (form : TargetType.Form) :
    Regular (TypeTarget.decode length form) := by
  cases form <;> grind [TypeTarget.decode]

@[grind ←] theorem decodeStep_regular : Regular decodeStep := by grind [decodeStep]

theorem TypeAnnotation.decode_regular (length : Option UInt16) (fuel : Nat) :
    Regular <| TypeAnnotation.decode pool length fuel := by
  have hn := decodeNested_regular pool (ElementValue.decode_regular pool fuel)
  refine .bind .u1 fun t => ?_
  split
  · exact .problem _
  split
  · exact .problem _
  · grind

theorem TypeAnnotation.extends_decode (length : Option UInt16) {fuel fuel' : Nat} (h : fuel ≤ fuel') :
    Extends (decode pool length fuel) (decode pool length fuel') := by
  refine Regular.u1.extend.bind fun t => ?_
  split
  · exact (Regular.problem _).extend
  split
  · exact (Regular.problem _).extend
  · refine (TypeTarget.decode_regular _ _).extend.bind fun _ =>
      (Regular.shortList decodeStep_regular).extend.bind fun _ => ?_
    exact ((ElementValue.extends_decode pool h).nested pool).bind fun _ => (Regular.pure _).extend

@[grind ←] theorem decodeTypes_regular (length : Option UInt16) : Regular (decodeTypes pool length) :=
  .bytesLeft (fun fuel => .list <| TypeAnnotation.decode_regular pool length fuel) fun _ _ h =>
    Regular.u2.extend.bind fun _ => .timesFrom (h := TypeAnnotation.extends_decode pool length h) _ []

/-! ## Classes -/

@[grind ←] theorem decodeClasses_regular : Regular (decodeClasses pool) := by grind [decodeClasses]

@[grind ←] theorem decodeModule_regular : Regular (decodeModule pool) := by
  have hr : Regular (decodeRequire pool) := by grind [decodeRequire]
  have hp : Regular (decodePackage pool) := by grind [decodePackage]
  have hv : Regular (decodeProvide pool) := by grind [decodeProvide]
  refine .bind (.index pool.module_safe) fun _ => .bind .u2 fun _ => .bind (by grind) fun _ => .bind hr.list fun _ => ?_
  grind

@[grind ←] theorem decodeBootstrapMethod_regular : Regular (decodeBootstrapMethod pool) := by grind [decodeBootstrapMethod]

@[grind ←] theorem decodeInnerClass_regular : Regular (decodeInnerClass pool) := by grind [decodeInnerClass]

@[grind ←] theorem decodeEnclosing_regular : Regular (decodeEnclosing pool) := by grind [decodeEnclosing]

@[grind ←] theorem decodeDebug_regular (length : Nat) : Regular (decodeDebug length) := by grind [decodeDebug]

@[grind ←] theorem decodeVersion_regular : Regular decodeVersion := by grind [decodeVersion]

@[grind ←] theorem decodeHeader_regular (version : Version) : Regular (decodeHeader version pool) := by grind [decodeHeader]

end ClassDoc
