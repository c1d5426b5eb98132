/-
  Reading class files never fails because of a label.
-/
import ClassDoc.Proofs.Binary.Regular
namespace ClassDoc

variable {α σ : Type} {part : String → Nat → ReadM (Option α)} (pool : PoolView)

theorem LabelSafe.ite {m : Type → Type} [Monad m] [MonadExcept Fault m] [MonadLiftT (Except Fault) m] [Failing m] {c : Prop}
    [Decidable c] {x y : m α} (hx : LabelSafe x) (hy : LabelSafe y) : LabelSafe (if c then x else y) := by
  split
  · exact hx
  · exact hy

/-! ## Code -/

@[grind ←] theorem skip_safe (size : Nat) : LabelSafe (Decode.skip size) := by
  rintro f ⟨s, h⟩
  cases h

@[grind ←] theorem decodeShortTarget_regular (pc : UInt16) : Regular (decodeShortTarget pc) := by grind [decodeShortTarget]

@[grind ←] theorem decodeLongTarget_regular (pc : UInt16) : Regular (decodeLongTarget pc) := by grind [decodeLongTarget]

@[grind ←] theorem decodeTable_safe (pc : UInt16) : LabelSafe (decodeTable pc) :=
  .bind (skip_safe _) fun _ => Regular.safe (by grind)

@[grind ←] theorem decodeLookup_safe (pc : UInt16) : LabelSafe (decodeLookup pc) :=
  .bind (skip_safe _) fun _ => Regular.safe (by grind)

@[grind ←] theorem decodeMethod_regular (op : Opcode) : Regular (decodeMethod pool op) := by grind [decodeMethod]

@[grind ←] theorem decodeWide_regular : Regular decodeWide := by grind [decodeWide]

@[grind ←] theorem decodeCallSite_regular : Regular (decodeCallSite pool) := by grind [decodeCallSite]

theorem Insn.decodeOperands_safe (pc : UInt16) (op : Opcode) : LabelSafe (Insn.decodeOperands pool pc op) := by
  iterate 21 refine .ite (by grind) ?_
  exact Regular.safe (.problem _)

theorem decodeInsnsFrom_safe (length : UInt16) (fuel : Nat) (found : List (UInt16 × Insn UInt16)) (i : Input) :
    LabelSafe (decodeInsnsFrom pool length fuel found i) := by
  have hd : ∀ pc i, LabelSafe (Insn.decode pool pc i) := fun pc i f hf =>
    LabelSafe.bind (m := Decode) Regular.u1.safe (fun op => Insn.decodeOperands_safe pool pc op) f ⟨i, hf⟩
  induction fuel generalizing found i with
  | zero => exact .ok _
  | succ fuel ih =>
    rw [decodeInsnsFrom]
    dsimp only
    split
    · exact .ok _
    split
    next e he => exact .error (LabelSafe.within _ (hd _ _) e he)
    split
    next e he => exact .error (LabelSafe.forM _ (fun o _ => checkOffset_safe length o) e he)
    next => exact ih _ _

@[grind ←] theorem VerificationType.decode_regular (length : UInt16) : Regular (VerificationType.decode pool length) :=
  .bind .u1 fun tag => by split <;> grind

@[grind ←] theorem Frame.decode_regular (length : UInt16) : Regular (Frame.decode pool length) := by grind [Frame.decode]

theorem decodeFramesFrom_regular (length : UInt16) (count : Nat) (previous : Option UInt16)
    (found : List (UInt16 × Frame UInt16)) : Regular (decodeFramesFrom pool length count previous found) := by
  have ho : ∀ previous delta, LabelSafe (frameOffset previous delta) := by
    intro previous delta
    cases previous <;> grind [frameOffset]
  induction count generalizing previous found with
  | zero => exact .pure _
  | succ count ih => exact .bind (Frame.decode_regular pool length) fun _ => .bind (.lift (ho _ _)) fun _ => ih _ _

@[grind ←] theorem decodeFrames_regular (length : UInt16) : Regular (decodeFrames pool length) :=
  .bind .u2 fun _ => decodeFramesFrom_regular pool length _ _ _

@[grind ←] theorem decodeLines_safe (length : UInt16) : LabelSafe (decodeLines length) := by grind [decodeLines]

@[grind ←] theorem decodeVariables_safe (length : UInt16) : LabelSafe (decodeVariables pool length) := by
  have hv : Regular (decodeVariable pool) := by grind [decodeVariable]
  grind [decodeVariables]

@[grind ←] theorem decodeVariableSignature_regular : Regular (decodeVariableSignature pool) := by
  grind [decodeVariableSignature]

@[grind ←] theorem decodeTryCatch_regular (length : UInt16) : Regular (decodeTryCatch pool length) := by
  refine .bind .u2 fun _ => .bind .u2 fun _ => .bind .u2 fun _ => ?_
  grind

/-! ## Attributes -/

@[grind ←] theorem take_safe {d : Decode α} (h : LabelSafe d) : LabelSafe (take d) := by
  rintro f ⟨s, t, hf⟩
  rw [take] at hf
  cases hd : d s.1 with
  | ok a => simp [hd] at hf
  | error e =>
    rw [hd] at hf
    cases hf
    exact h _ ⟨_, hd⟩

@[grind ←] theorem emit_safe (e : ClassEvent) : LabelSafe (emit e : TraceM σ Unit) := by
  rintro f ⟨s, t, h⟩
  cases h

@[grind ←] theorem warn_safe (w : Warning) : LabelSafe (warn w : TraceM σ Unit) := by
  rintro f ⟨s, t, h⟩
  cases h

@[grind ←] theorem get_safe : LabelSafe (get : EStateM Fault σ σ) := by
  rintro f ⟨s, t, h⟩
  cases h

@[grind ←] theorem modify_safe (g : σ → σ) : LabelSafe (modify g : EStateM Fault σ PUnit) := by
  rintro f ⟨s, t, h⟩
  cases h

@[grind ←] theorem tracedInside_safe (p : Place) {x : TraceM σ α} (h : LabelSafe x) : LabelSafe (tracedInside p x) := by
  rintro f ⟨s, t, hf⟩
  rw [tracedInside] at hf
  cases hx : x (s.1, []) with
  | ok a r => simp [hx] at hf
  | error g r =>
    simp only [hx, EStateM.Result.error.injEq] at hf
    exact hf.1 ▸ h g ⟨_, _, hx⟩

@[grind ←] theorem readAttributes_safe (h : ∀ name length, LabelSafe (part name length)) :
    LabelSafe (readAttributes pool part) := by
  have hf : ∀ count found, LabelSafe (readAttributesFrom pool part count found) := by
    intro count
    induction count with
    | zero => exact fun found => .pure _
    | succ count ih =>
      intro found
      refine .bind (by grind) fun name => .bind (by grind) fun length => .bind (h name _) fun found => ?_
      cases found <;> exact ih _
  exact .bind (by grind) fun _ => hf _ _

@[grind ←] theorem skipAttribute_safe (w : Warning) (length : Nat) :
    LabelSafe (skipAttribute w length : ReadM (Option α)) := by
  grind [skipAttribute]

theorem readCodePart_safe (codeLength : UInt16) (name : String) (length : Nat) :
    LabelSafe (readCodePart pool codeLength name length) := by
  iterate 6 refine .ite (by grind) ?_
  grind

theorem readRawCode_safe : LabelSafe (readRawCode pool) := by
  have hi : ∀ bytes, LabelSafe (decodeInsns pool bytes) := fun bytes => decodeInsnsFrom_safe pool _ _ _ _
  refine .bind (by grind) fun _ => .bind (by grind) fun _ => .bind (by grind) fun length => ?_
  split
  · exact .throw rfl
  refine .bind (by grind) fun bytes => .bind (.lift (hi _)) fun _ => .bind (by grind) fun _ => ?_
  exact .bind (readAttributes_safe pool (readCodePart_safe pool _)) fun _ => .pure _

theorem readCode_safe : LabelSafe (readCode pool) := by
  have hc : ∀ raw : RawCode, LabelSafe raw.events := fun raw => .bind (by grind [RawCode.check]) fun _ => .pure _
  exact .bind (readRawCode_safe pool) fun _ => by grind

/-! ## Members -/

@[grind ←] theorem readAnyPart_safe (name : String) : LabelSafe (readAnyPart pool name) := by
  iterate 5 refine .ite (by grind) ?_
  exact .pure _

@[grind ←] theorem readElementPart_safe (w : Warning) (name : String) (length : Nat) :
    LabelSafe (readElementPart pool w name length) := by
  refine .bind (readAnyPart_safe pool name) fun part => ?_
  split
  · exact .pure _
  split <;> grind

theorem readField_safe : LabelSafe (readField pool) := by
  have hp : ∀ field name length, LabelSafe (readFieldPart pool field name length) := by grind [readFieldPart]
  refine .bind (by grind) fun _ => .bind (by grind) fun _ => .bind (by grind) fun _ => tracedInside_safe _ ?_
  grind

theorem decodeParameterAnnotations_regular (visible : Bool) (descriptor : String) :
    Regular (decodeParameterAnnotations pool visible descriptor) := by
  grind [decodeParameterAnnotations]

theorem readMethodPart_safe (method descriptor name : String) (length : Nat) :
    LabelSafe (readMethodPart pool method descriptor name length) := by
  have hp : Regular (decodeParameter pool) := by grind [decodeParameter]
  have ha := decodeParameterAnnotations_regular pool true descriptor
  have hb := decodeParameterAnnotations_regular pool false descriptor
  iterate 6 refine .ite (by grind) ?_
  grind

theorem readAt_safe (input : Input) {x : ReadM α} (h : LabelSafe x) : LabelSafe (readAt input x) := by grind [readAt]

theorem readMethod_safe : LabelSafe (readMethod pool) := by
  have hp := readMethodPart_safe pool
  have hc := readCode_safe pool
  refine .bind (by grind) fun _ => .bind (by grind) fun _ => .bind (by grind) fun _ => tracedInside_safe _ ?_
  refine .bind (by grind) fun _ => .bind (by grind) fun _ => ?_
  split
  · exact readAt_safe _ hc
  · exact .pure _

/-! ## Classes -/

theorem readComponents_safe : LabelSafe (readComponents pool) := by
  have hp : ∀ component name length, LabelSafe (readComponentPart pool component name length) := fun component name length =>
    .bind (readAnyPart_safe pool name) fun part => by split <;> grind
  have hf : ∀ count found, LabelSafe (readComponentsFrom pool count found) := by
    intro count
    induction count with
    | zero => exact fun _ => .pure _
    | succ count ih => exact fun found => .bind (by grind [readComponent]) fun _ => ih _
  exact .bind (by grind) fun _ => hf _ _

theorem readClassPart_safe (className name : String) (length : Nat) :
    LabelSafe (readClassPart pool className name length) := by
  have hc := readComponents_safe pool
  iterate 12 refine .ite (by grind) ?_
  grind

theorem skipMembers_safe : LabelSafe skipMembers := by
  have hl : ∀ {d : Decode Unit}, LabelSafe d → LabelSafe (Decode.list d) := fun h =>
    .bind Regular.u2.safe fun _ => Regular.timesFrom_safe h _ _
  have ha : LabelSafe skipAttributes := .bind (hl (by grind)) fun _ => .pure _
  exact .bind (hl (.bind (skip_safe _) fun _ => ha)) fun _ => .pure _

theorem repeatRead_safe {x : ReadM Unit} (h : LabelSafe x) (count : Nat) : LabelSafe (repeatRead x count) := by
  induction count with
  | zero => exact .pure _
  | succ count ih => exact .bind h fun _ => ih

theorem readClass_safe : LabelSafe readClass := by
  have hm : ∀ pool, LabelSafe (readMembers pool) := fun pool =>
    .bind (by grind) fun _ => .bind (repeatRead_safe (readField_safe pool) _) fun _ =>
      .bind (by grind) fun _ => repeatRead_safe (readMethod_safe pool) _
  have hs := take_safe skipMembers_safe
  refine .bind (by grind) fun version => .bind (take_safe PoolView.decode_regular.safe) fun pool =>
    .bind (by grind) fun header => ?_
  refine .bind get_safe fun _ => .bind hs fun _ => .bind hs fun _ => ?_
  refine .bind (readAttributes_safe pool (readClassPart_safe pool _)) fun parts => ?_
  have hr := fun methods members => readAt_safe members (hm { pool with methods })
  split_ifs <;> grind

/-- **Reading a class file never fails because of a label.** -/
theorem outcome_safe (bytes : Bytes) : LabelSafe (readTrace bytes).outcome := by
  intro f hf
  have hf : (readTrace bytes).outcome = .error f := hf
  rw [readTrace, traceOf] at hf
  cases hx : readClass ({ rest := bytes }, []) with
  | ok a s => simp [hx] at hf
  | error e s =>
    simp only [hx, Except.error.injEq] at hf
    exact hf ▸ readClass_safe e ⟨_, _, hx⟩

end ClassDoc
