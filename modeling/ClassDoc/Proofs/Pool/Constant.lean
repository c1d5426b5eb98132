/-
  Loadable constants in the pool.
-/
import ClassDoc.Proofs.Pool.Puts
namespace ClassDoc

/-- The handle as it is read back: that the owner is an interface is only known of methods. -/
def Handle.normal (h : Handle) : Handle := { h with interface := !Handle.isFieldKind h.kind && h.interface }

mutual

def Constant.normal : Constant → Constant
  | methodHandle h => .methodHandle h.normal
  | dynamic name descriptor bootstrap arguments =>
    .dynamic name descriptor bootstrap.normal (Constant.normalAll arguments)
  | c => c

def Constant.normalAll : List Constant → List Constant
  | [] => []
  | c :: rest => c.normal :: Constant.normalAll rest

end

/-- Only the owner of a method is said to be an interface. -/
def Handle.isPlain (h : Handle) : Bool := !(Handle.isFieldKind h.kind && h.interface)

theorem Handle.normal_of_isPlain {h : Handle} (hp : h.isPlain = true) : h.normal = h := by
  obtain ⟨kind, owner, name, descriptor, interface⟩ := h
  simp only [isPlain] at hp
  simp only [normal, Handle.mk.injEq, true_and]
  cases hk : isFieldKind kind <;> simp_all

mutual

/-- The handles in a constant, those of nested bootstrap methods among them. -/
def Constant.handles : Constant → List Handle
  | methodHandle h => [h]
  | dynamic _ _ bootstrap arguments => bootstrap :: Constant.handlesAll arguments
  | integer _ | float _ | long _ | double _ | string _ | classRef _ | methodType _ => []

def Constant.handlesAll : List Constant → List Handle
  | [] => []
  | c :: rest => c.handles ++ Constant.handlesAll rest

end

mutual

theorem Constant.normal_of_isPlain : (c : Constant) → (∀ h ∈ c.handles, h.isPlain = true) → c.normal = c
  | methodHandle h, hh => congrArg _ (Handle.normal_of_isPlain (hh h (by simp [Constant.handles])))
  | dynamic name descriptor bootstrap arguments, hh => by
    rw [Constant.handles, List.forall_mem_cons] at hh
    rw [Constant.normal, Handle.normal_of_isPlain hh.1, Constant.normalAll_of_isPlain arguments hh.2]
  | integer _, _ | float _, _ | long _, _ | double _, _ | string _, _ | classRef _, _ | methodType _, _ => rfl

theorem Constant.normalAll_of_isPlain : (cs : List Constant) → (∀ h ∈ Constant.handlesAll cs, h.isPlain = true) →
    Constant.normalAll cs = cs
  | [], _ => rfl
  | c :: rest, hh => by
    rw [Constant.handlesAll, List.forall_mem_append] at hh
    rw [Constant.normalAll, Constant.normal_of_isPlain c hh.1, Constant.normalAll_of_isPlain rest hh.2]

end

mutual

/-- The constant can be read back where `level` bootstrap methods can be nested: the reference kinds exist, and it is
not nested deeper. -/
def Constant.loads : (level : Nat) → Constant → Bool
  | _, methodHandle h => Handle.isKind h.kind
  | 0, dynamic _ _ _ _ => false
  | level + 1, dynamic _ _ bootstrap arguments => Handle.isKind bootstrap.kind && Constant.allLoad level arguments
  | _, _ => true

def Constant.allLoad : (level : Nat) → List Constant → Bool
  | _, [] => true
  | level, c :: rest => c.loads level && Constant.allLoad level rest

end

variable {β : Type} {full : Bool}

/-! ## Handles -/

theorem puts_handleEntry (h : Handle) (hk : Handle.isKind h.kind) : Puts full (Pool.methodHandle h) fun V i =>
    (∃ r, V.entry i = .ok (.methodHandle h.kind r)) ∧ V.methodHandle i = .ok h.normal := by
  have step : ∀ {x : PoolM UInt16} {interface : Bool}, interface = h.normal.interface →
      Puts full x (fun V r => V.memberRef r = .ok ⟨h.owner, h.name, h.descriptor, interface⟩) →
      Puts full (x >>= fun r => Pool.put (.methodHandle h.kind r)) fun V i =>
        (∃ r, V.entry i = .ok (.methodHandle h.kind r)) ∧ V.methodHandle i = .ok h.normal := by
    intro x interface hn hx
    subst hn
    refine hx.bind fun r => (puts_put _).mono fun V i he hr => ⟨⟨r, he⟩, ?_⟩
    rw [PoolView.methodHandle, he, ok_bind]
    simp only [hk, hr, within_ok, ok_bind]
    rfl
  unfold Pool.methodHandle
  split
  next hf => exact step (by simp [Handle.normal, hf]) (puts_fieldRef _ _ _)
  next hf => exact step (by simp [Handle.normal, hf]) (puts_methodRef _ _ _ _)

theorem puts_methodHandle (h : Handle) (hk : Handle.isKind h.kind) :
    Puts full (Pool.methodHandle h) fun V i => V.methodHandle i = .ok h.normal :=
  (puts_handleEntry h hk).mono fun _ _ h => h.2

variable {Q : PoolView → List UInt16 → Prop} {x : PoolM (List UInt16)} {bootstrap : Handle}

theorem puts_bootstrap (hk : Handle.isKind bootstrap.kind) (hx : Puts true x Q) : Puts true (do
      let handle ← Pool.methodHandle bootstrap
      let arguments ← x
      Pool.putMethod ⟨handle, arguments⟩) fun V i =>
    ∃ arguments, Q V arguments ∧ V.methods[i.toNat]? = some (bootstrap.normal, arguments) := by
  intro p i q hp hi
  obtain ⟨handle, p₁, h₁, hi⟩ := run_bind_eq_ok.1 hi
  obtain ⟨arguments, p₂, h₂, h₃⟩ := run_bind_eq_ok.1 hi
  have s₀ := puts_methodHandle bootstrap hk hp h₁
  have s₁ := @puts_methodHandle false bootstrap hk p handle p₁ hp.tables h₁
  have s₂ := hx s₀.wf h₂
  have hh := fun V (hV : PoolView.Covers V false p₂) => s₁.seen p₂ V s₂.wf.tables s₂.le hV
  obtain ⟨hq, hle, hm⟩ := Pool.putMethod_eq_ok s₂.wf hh h₃
  refine ⟨hq, (s₀.le.trans s₂.le).trans hle, fun r hr hqr => ?_, fun P V hP hqP hV => ⟨arguments, ?_, ?_⟩⟩
  · have h₁' := s₀.again r hr ((s₂.le.trans hle).trans hqr)
    have h₂' := s₂.again r hr (hle.trans hqr)
    have h₃' := Pool.putMethod_of_method hr.tables (getElem?_of_isPrefix hqr.2 hm)
    exact run_bind_eq_ok.2 ⟨_, _, h₁', run_bind_eq_ok.2 ⟨_, _, h₂', h₃'⟩⟩
  · exact s₂.seen P V hP (hle.trans hqP) hV
  · obtain ⟨h, hn, hh'⟩ := (hV.mono hqP).method rfl _ _ hm
    rw [hn, Except.ok.inj (hh'.symm.trans (hh V (hV.mono (hle.trans hqP)).entries))]

theorem puts_bootstrap_bind (hk : Handle.isKind bootstrap.kind)
    (hx : Puts true x Q) {f : UInt16 → PoolM β} {S : PoolView → β → Prop}
    (hf : ∀ i, Puts true (f i) fun V b =>
      (∃ arguments, Q V arguments ∧ V.methods[i.toNat]? = some (bootstrap.normal, arguments)) → S V b) :
    Puts true (do
      let handle ← Pool.methodHandle bootstrap
      let arguments ← x
      let method ← Pool.putMethod ⟨handle, arguments⟩
      f method) S := by
  have h := (puts_bootstrap hk hx).bind hf
  simpa only [bind_assoc] using h

/-! ## Constants -/

theorem bootstrapAt_succ_eq_ok {V : PoolView} {level : Nat} {method : UInt16} {handle : Handle} {is : List UInt16}
    {cs : List Constant} (hm : V.methods[method.toNat]? = some (handle, is))
    (hc : List.Forall₂ (fun i c => V.loadable (V.bootstrapAt level) i = .ok c) is cs) :
    V.bootstrapAt (level + 1) method = .ok (handle, cs) := by
  have ha : is.mapM (fun i => within (.bootstrapArgument method) (V.loadable (V.bootstrapAt level) i)) = .ok cs := by
    rw [mapM_eq_ok_iff]
    exact hc.imp fun _ _ h => within_eq_ok.2 h
  rw [PoolView.bootstrapAt, hm]
  simp only [ha, ok_bind]
  rfl

mutual

theorem puts_loadable (level : Nat) : (c : Constant) → c.loads level = true →
    Puts true (Pool.constant c) fun V i => V.loadable (V.bootstrapAt level) i = .ok c.normal
  | .integer v, _ | .float v, _ | .long v, _ | .double v, _ =>
    (puts_put _).mono fun V i he => by rw [PoolView.loadable, he]; rfl
  | .string v, _ => (puts_text v).bind fun t => (puts_put _).mono fun V i he ht => by
    rw [PoolView.loadable, he, ok_bind]
    simp only [ht, ok_bind]
    rfl
  | .classRef name, _ => (puts_utf8 name).bind fun n => (puts_put _).mono fun V i he hn => by
    rw [PoolView.loadable, he, ok_bind]
    simp only [hn, ok_bind]
    rfl
  | .methodType descriptor, _ => (puts_utf8 descriptor).bind fun d => (puts_put _).mono fun V i he hd => by
    rw [PoolView.loadable, he, ok_bind]
    simp only [hd, ok_bind]
    rfl
  | .methodHandle h, hl => (puts_handleEntry h (by simpa [Constant.loads] using hl)).mono fun V i he => by
    obtain ⟨⟨r, he⟩, hh⟩ := he
    rw [PoolView.loadable, he, ok_bind]
    simp only [hh, ok_bind]
    rfl
  | .dynamic name descriptor bootstrap arguments, hl => by
    obtain _ | level := level
    · exact nomatch hl
    rw [Constant.loads, Bool.and_eq_true] at hl
    rw [Pool.constant]
    refine (puts_nameAndType name descriptor).bind fun m => ?_
    refine puts_bootstrap_bind hl.1 (puts_loadables level arguments hl.2) fun method => ?_
    refine (puts_put _).mono fun V i he hb hm => ?_
    obtain ⟨is, hc, hb⟩ := hb
    rw [PoolView.loadable, he, ok_bind]
    simp only [hm, ok_bind, bootstrapAt_succ_eq_ok hb hc]
    rfl

theorem puts_loadables (level : Nat) : (cs : List Constant) → Constant.allLoad level cs = true →
    Puts true (Pool.constants cs) fun V is =>
      List.Forall₂ (fun i c => V.loadable (V.bootstrapAt level) i = .ok c) is (Constant.normalAll cs)
  | [], _ => .pure fun _ => .nil
  | c :: cs, hl => by
    rw [Constant.allLoad, Bool.and_eq_true] at hl
    exact (puts_loadable level c hl.1).bind fun i => (puts_loadables level cs hl.2).bind fun is =>
      .pure fun _ his hi => .cons hi his

end

/-- **A loadable constant is found where it was put.** -/
theorem puts_constant (c : Constant) (h : c.loads (PoolView.maxDepth + 1)) :
    Puts true (Pool.constant c) fun V i => V.constant i = .ok c.normal :=
  puts_loadable _ c h

/-- **A call site is found where it was put.** -/
theorem puts_invokeDynamic (name descriptor : String) (bootstrap : Handle) (arguments : List Constant)
    (hk : Handle.isKind bootstrap.kind) (hl : Constant.allLoad PoolView.maxDepth arguments) :
    Puts true (Pool.invokeDynamic name descriptor bootstrap arguments) fun V i =>
      V.invokeDynamic i = .ok (name, descriptor, bootstrap.normal, Constant.normalAll arguments) := by
  refine (puts_nameAndType name descriptor).bind fun m => ?_
  refine puts_bootstrap_bind hk (puts_loadables _ arguments hl) fun method => ?_
  refine (puts_put _).mono fun V i he hb hm => ?_
  obtain ⟨is, hc, hb⟩ := hb
  rw [PoolView.invokeDynamic, he, ok_bind]
  simp only [hm, ok_bind, PoolView.bootstrap, bootstrapAt_succ_eq_ok hb hc, within_ok]
  rfl

def Constant.isValue : Constant → Bool
  | integer _ | float _ | long _ | double _ | string _ => true
  | _ => false

theorem puts_constantValue (c : Constant) (h : c.isValue) :
    Puts full (Pool.constant c) fun V i => V.constantValue i = .ok c := by
  cases c with
  | integer v | float v | long v | double v =>
    refine (puts_put _).mono fun V i he => ?_
    rw [PoolView.constantValue, he, ok_bind]
    simp only [PoolView.constant, PoolView.loadable, he, ok_bind]
  | string v =>
    refine (puts_text v).bind fun t => (puts_put _).mono fun V i he ht => ?_
    rw [PoolView.constantValue, he, ok_bind]
    simp only [PoolView.constant, PoolView.loadable, he, ht, ok_bind]
    rfl
  | classRef | methodType | methodHandle | dynamic => exact nomatch h

end ClassDoc
