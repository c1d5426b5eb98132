/-
  What a writer does with events, by the bytes of the members.
-/
import ClassDoc.Proofs.ClassFile.Elements
import ClassDoc.Proofs.ClassFile.Field
import ClassDoc.Proofs.ClassFile.Method
namespace ClassDoc

def Member.event : Member → ClassEvent
  | field header => .field header
  | method header => .method header

namespace ClassWriter

variable {α : Type} {w t : ClassWriter} {u : Unit} {events : List ClassEvent} {member : Member} {e : ClassEvent}
  {header : ClassHeader} {bytes : Bytes}

/-! ## Steps -/

theorem inPool_eq_ok {x : PoolM α} {a : α} :
    inPool x w = .ok a t ↔ ∃ pool, x w.pool = .ok a pool ∧ t = { w with pool } := by
  rw [inPool]
  cases x w.pool with
  | ok b pool =>
    simp only [EStateM.Result.ok.injEq]
    constructor
    · rintro ⟨rfl, rfl⟩
      exact ⟨pool, ⟨rfl, rfl⟩, rfl⟩
    · rintro ⟨_, ⟨rfl, rfl⟩, rfl⟩
      exact ⟨rfl, rfl⟩
  | error f pool => simp

theorem run_modify_eq_ok {change : ClassWriter → ClassWriter} :
    (modify change : WriterM Unit) w = .ok u t ↔ t = change w := by
  have hm : (modify change : WriterM Unit) w = .ok () (change w) := rfl
  rw [hm, EStateM.Result.ok.injEq, eq_comm (a := t)]
  exact ⟨And.right, fun h => ⟨rfl, h⟩⟩

theorem run_get_eq_ok {s : ClassWriter} : (get : WriterM ClassWriter) w = .ok s t ↔ s = w ∧ t = w := by
  have hg : (get : WriterM ClassWriter) w = .ok w w := rfl
  rw [hg, EStateM.Result.ok.injEq, eq_comm, eq_comm (a := w) (b := t)]

theorem indexBytes_eq_ok {x : PoolM UInt16} {p q : Pool} :
    indexBytes x p = .ok bytes q ↔ ∃ i, x p = .ok i q ∧ bytes = Bytes.u2 i := by
  rw [indexBytes, run_bind_eq_ok]
  constructor
  · rintro ⟨i, r, hi, h⟩
    cases h
    exact ⟨i, hi, rfl⟩
  · rintro ⟨i, hi, rfl⟩
    exact ⟨i, q, hi, rfl⟩

/-! ## Members -/

def partsOf {β : Type} (check : Except Fault β) (access : UInt16) (name descriptor : String)
    (attributes : β → PoolM (List Attribute)) : PoolM (List Bytes) := do
  let checked ← check
  let i ← Pool.utf8 name
  let j ← Pool.utf8 descriptor
  let attributes ← attributes checked
  let bytes ← Attribute.encodeAll attributes
  return [Bytes.u2 access, Bytes.u2 i, Bytes.u2 j, bytes]

def memberParts (events : List ClassEvent) : Member → PoolM (List Bytes)
  | .field h => partsOf (ofDescriptor (Descriptor.checkField h.descriptor)) h.access h.name h.descriptor fun _ =>
      fieldAttributes h events
  | .method h => partsOf (ofDescriptor (Descriptor.splitMethod h.descriptor)) h.access h.name h.descriptor fun split =>
      methodAttributes h split.1.length events

def memberBytes (events : List ClassEvent) : Member → PoolM Bytes
  | .field header => fieldBytes header events
  | .method header => methodBytes header events

theorem memberBytes_eq_ok {p q : Pool} :
    memberBytes events member p = .ok bytes q ↔ ∃ parts, memberParts events member p = .ok parts q ∧
      parts.flatten = bytes := by
  cases member
  all_goals
    simp only [memberBytes, fieldBytes, methodBytes, memberParts, partsOf, run_bind_eq_ok]
    constructor
    · rintro ⟨x, _, hx, i, _, hi, j, _, hj, attributes, _, ha, rest, _, hr, h⟩
      cases h
      exact ⟨_, ⟨x, _, hx, i, _, hi, j, _, hj, attributes, _, ha, rest, _, hr, rfl⟩, by simp⟩
    · rintro ⟨_, ⟨x, _, hx, i, _, hi, j, _, hj, attributes, _, ha, rest, _, hr, h⟩, rfl⟩
      cases h
      exact ⟨x, _, hx, i, _, hi, j, _, hj, attributes, _, ha, rest, _, hr, by simp [pure, EStateM.pure]⟩

def withParts (w : ClassWriter) (pool : Pool) (parts : List Bytes) : Member → ClassWriter
  | .field _ => { w with pool, fields := parts.reverse ++ w.fields }
  | .method _ => { w with pool, methods := parts.reverse ++ w.methods }

def writeParts (events : List ClassEvent) : Member → WriterM Unit
  | .field header => writeField header events
  | .method header => writeMethod header events

theorem writeParts_eq_ok : writeParts events member w = .ok u t ↔
    ∃ parts pool, memberParts events member w.pool = .ok parts pool ∧ t = w.withParts pool parts member := by
  cases member
  all_goals
    simp only [writeParts, writeField, writeMethod, addToFields, addToMethods, memberParts, partsOf, run_bind_eq_ok,
      run_lift_eq_ok, run_modify_eq_ok, inPool_eq_ok, indexBytes_eq_ok]
    constructor
    · rintro ⟨x, _, ⟨hx, rfl⟩, _, _, rfl, _, _, ⟨p, ⟨i, hi, rfl⟩, rfl⟩, _, _, rfl, _, _, ⟨q, ⟨j, hj, rfl⟩, rfl⟩, _, _, rfl,
        attributes, _, ⟨r, ha, rfl⟩, bytes, _, ⟨hb, rfl⟩, rfl⟩
      exact ⟨_, r, ⟨x, _, ⟨hx, rfl⟩, i, p, hi, j, q, hj, attributes, r, ha, bytes, r, ⟨hb, rfl⟩, rfl⟩, rfl⟩
    · rintro ⟨_, _, ⟨x, _, ⟨hx, rfl⟩, i, p, hi, j, q, hj, attributes, r, ha, bytes, _, ⟨hb, rfl⟩, h⟩, rfl⟩
      cases h
      exact ⟨x, _, ⟨hx, rfl⟩, (), _, rfl, _, _, ⟨p, ⟨i, hi, rfl⟩, rfl⟩, (), _, rfl, _, _, ⟨q, ⟨j, hj, rfl⟩, rfl⟩, (), _, rfl,
        attributes, _, ⟨_, ha, rfl⟩, bytes, _, ⟨hb, rfl⟩, rfl⟩

def withMember (w : ClassWriter) (pool : Pool) (parts : List Bytes) : Member → ClassWriter
  | .field _ => { w with pool, member := none, fields := parts.reverse ++ w.fields, fieldCount := w.fieldCount + 1 }
  | .method _ => { w with pool, member := none, methods := parts.reverse ++ w.methods, methodCount := w.methodCount + 1 }

theorem finishMember_of_none (h : w.member = none) : finishMember w = .ok () w := by
  obtain ⟨_, _, _, member, _, _, _, _, _⟩ := w
  cases h
  rfl

def writeMember (events : List ClassEvent) : Member → WriterM Unit
  | .field header => do
    inPlace (.writingField header.name) (writeField header events)
    modify fun w => { w with fieldCount := w.fieldCount + 1 }
  | .method header => do
    inPlace (.writingMethod (header.name ++ header.descriptor)) (writeMethod header events)
    modify fun w => { w with methodCount := w.methodCount + 1 }

theorem finishMember_apply (hm : w.member = some (member, events)) :
    finishMember w = writeMember events.reverse member { w with member := none } := by
  obtain ⟨_, _, _, _, _, _, _, _, _⟩ := w
  cases hm
  cases member <;> rfl

theorem finishMember_of_some (hm : w.member = some (member, events)) : finishMember w = .ok u t ↔
      ∃ parts pool, memberParts events.reverse member w.pool = .ok parts pool ∧ t = w.withMember pool parts member := by
  rw [finishMember_apply hm]
  have hparts : ∀ r, writeParts events.reverse member { w with member := none } = .ok () r ↔ _ := fun _ => writeParts_eq_ok
  cases member
  all_goals
    simp only [writeMember, run_bind_eq_ok, inPlace_eq_ok, run_modify_eq_ok]
    constructor
    · rintro ⟨_, r, h, rfl⟩
      obtain ⟨parts, pool, hp, rfl⟩ := (hparts r).1 h
      exact ⟨parts, pool, hp, rfl⟩
    · rintro ⟨parts, pool, h, rfl⟩
      exact ⟨(), _, (hparts _).2 ⟨parts, pool, h, rfl⟩, rfl⟩

theorem member_of_finishMember (h : finishMember w = .ok u t) : t.member = none := by
  rcases hm : w.member with _ | ⟨member, events⟩
  · rw [finishMember_of_none hm] at h
    cases h
    exact hm
  · obtain ⟨parts, pool, -, rfl⟩ := (finishMember_of_some hm).1 h
    cases member <;> rfl

/-! ## Events -/

/-- The header was written, and the class is not ended. -/
structure Open (w : ClassWriter) : Prop where
  ended : w.ended = false
  header : w.header.isSome = true

def kept (w : ClassWriter) (e : ClassEvent) : ClassWriter :=
  match w.member with
  | none => { w with events := e :: w.events }
  | some (member, events) => { w with member := some (member, e :: events) }

def Allows (w : ClassWriter) : Level → Prop
  | .element => True
  | .method => ∃ header events, w.member = some (.method header, events)
  | .preamble => w.member = none
  | .header | .member | .done => False

theorem accept_apply (he : e.level ≠ .header) : accept e w = if w.ended then .error (.write (.afterEnd e)) w else
      if w.header.isNone then .error (.write (.headerFirst e)) w else acceptInside e w := by
  obtain ⟨_, header, _, _, _, _, _, _, ended⟩ := w
  cases ended with
  | true => rfl
  | false =>
    cases e with
    | header h => exact absurd rfl he
    | _ => cases header <;> rfl

theorem accept_eq_ok (he : e.level ≠ .header) : accept e w = .ok u t ↔ w.Open ∧ acceptInside e w = .ok u t := by
  rw [accept_apply he]
  cases h1 : w.ended with
  | true => simpa using fun h => absurd h.ended (by simp [h1])
  | false =>
    cases h2 : w.header with
    | none => simpa using fun h => absurd h.header (by simp [h2])
    | some header => simpa using fun _ => ⟨h1, by simp [h2]⟩

theorem acceptInside_apply (he : e.isBoundary = false) : acceptInside e w = match e.level, w.member with
    | .element, _ => keep e w
    | .method, some (.method _, _) => keep e w
    | .method, _ => .error (.write .outsideMethod) w
    | _, none => keep e w
    | _, some _ => .error (.write (.afterMember e)) w := by
  obtain ⟨_, _, _, member, _, _, _, _, ended⟩ := w
  cases e with
  | field | method | done => cases he
  | _ => rcases member with _ | ⟨_ | _, _⟩ <;> rfl

theorem keep_eq (e : ClassEvent) : keep e w = .ok () (w.kept e) := by
  obtain ⟨_, _, _, member, _, _, _, _, _⟩ := w
  cases member <;> rfl

theorem accept_kept_eq_ok (he : e.level ≠ .header) (hb : e.isBoundary = false) :
    accept e w = .ok u t ↔ w.Open ∧ w.Allows e.level ∧ t = w.kept e := by
  rw [accept_eq_ok he, acceptInside_apply hb, eq_comm (a := t)]
  refine and_congr_right fun _ => ?_
  have hk : keep e w = .ok u t ↔ w.kept e = t := by simp [keep_eq]
  cases hl : e.level with
  | header => exact absurd hl he
  | member => simp [ClassEvent.isBoundary, hl] at hb
  | done => simp [ClassEvent.isBoundary, hl] at hb
  | element => simp [Allows, hk]
  | preamble => cases hm : w.member <;> simp [Allows, hk, hm]
  | method => rcases hm : w.member with _ | ⟨_ | _, _⟩ <;> simp [Allows, hk, hm]

theorem accept_member_eq_ok (member : Member) : accept member.event w = .ok u t ↔
    w.Open ∧ ∃ r, finishMember w = .ok () r ∧ t = { r with member := some (member, []) } := by
  have hs : acceptInside member.event = startMember member := by cases member <;> rfl
  have hl : member.event.level ≠ .header := by cases member <;> simp [Member.event, ClassEvent.level]
  rw [accept_eq_ok hl, hs]
  simp only [startMember, run_bind_eq_ok, run_modify_eq_ok]
  refine and_congr_right fun _ => ?_
  constructor
  · rintro ⟨_, r, h, ht⟩
    exact ⟨r, h, ht⟩
  · rintro ⟨r, h, ht⟩
    exact ⟨(), r, h, ht⟩

theorem accept_done_eq_ok :
    accept .done w = .ok u t ↔ w.Open ∧ ∃ r, finishMember w = .ok () r ∧ t = { r with ended := true } := by
  have hs : acceptInside .done = (do
      finishMember
      modify fun w => { w with ended := true }) := rfl
  rw [accept_eq_ok (by simp [ClassEvent.level]), hs]
  simp only [run_bind_eq_ok, run_modify_eq_ok]
  refine and_congr_right fun _ => ?_
  constructor
  · rintro ⟨_, r, h, ht⟩
    exact ⟨r, h, ht⟩
  · rintro ⟨r, h, ht⟩
    exact ⟨(), r, h, ht⟩

/-! ## The header -/

def headerIndices (header : ClassHeader) : PoolM WrittenHeader := do
  let interfaces ← header.interfaces.mapM Pool.classRef
  let thisClass ← Pool.classRef header.name
  let superClass ← Pool.optionalClass header.superClass
  return ⟨header.version, header.access, thisClass, superClass, interfaces⟩

theorem mapM_inPool_eq_ok {β : Type} {f : α → PoolM β} {xs : List α} {ys : List β} :
    (xs.mapM fun x => inPool (f x)) w = .ok ys t ↔ ∃ pool, xs.mapM f w.pool = .ok ys pool ∧ t = { w with pool } := by
  induction xs generalizing w t ys with
  | nil =>
    have h1 : (([] : List α).mapM fun x => inPool (f x)) w = .ok [] w := rfl
    have h2 : ([] : List α).mapM f w.pool = .ok [] w.pool := rfl
    rw [h1, h2]
    simp only [EStateM.Result.ok.injEq]
    constructor
    · rintro ⟨rfl, rfl⟩
      exact ⟨_, ⟨rfl, rfl⟩, rfl⟩
    · rintro ⟨_, ⟨rfl, rfl⟩, rfl⟩
      exact ⟨rfl, rfl⟩
  | cons x xs ih =>
    simp only [List.mapM_cons, run_bind_eq_ok, inPool_eq_ok, ih]
    constructor
    · rintro ⟨y, _, ⟨p, hy, rfl⟩, zs, _, ⟨q, hz, rfl⟩, h⟩
      cases h
      exact ⟨q, ⟨y, p, hy, zs, q, hz, rfl⟩, rfl⟩
    · rintro ⟨_, ⟨y, p, hy, zs, q, hz, h⟩, rfl⟩
      cases h
      exact ⟨y, _, ⟨p, hy, rfl⟩, zs, _, ⟨_, hz, rfl⟩, rfl⟩

theorem writeHeader_eq_ok : writeHeader header w = .ok u t ↔
    w.header = none ∧ ∃ written pool, headerIndices header w.pool = .ok written pool ∧
      t = { w with pool, header := some written } := by
  rw [writeHeader, run_bind_eq_ok]
  simp only [run_get_eq_ok]
  constructor
  · rintro ⟨_, _, ⟨rfl, rfl⟩, h⟩
    split at h
    · cases h
    · rename_i hn
      simp only [run_bind_eq_ok, mapM_inPool_eq_ok, inPool_eq_ok, run_modify_eq_ok] at h
      obtain ⟨is, _, ⟨p, hi, rfl⟩, c, _, ⟨q, hc, rfl⟩, s, _, ⟨r, hs, rfl⟩, rfl⟩ := h
      refine ⟨by simpa using hn, _, r, ?_, rfl⟩
      simp only [headerIndices, run_bind_eq_ok]
      exact ⟨is, p, hi, c, q, hc, s, r, hs, rfl⟩
  · rintro ⟨hn, written, pool, h, rfl⟩
    refine ⟨w, w, ⟨rfl, rfl⟩, ?_⟩
    simp only [headerIndices, run_bind_eq_ok] at h
    obtain ⟨is, p, hi, c, q, hc, s, r, hs, h⟩ := h
    cases h
    simp only [hn, Option.isSome_none, Bool.false_eq_true, if_false, run_bind_eq_ok, mapM_inPool_eq_ok, inPool_eq_ok,
      run_modify_eq_ok]
    exact ⟨is, _, ⟨p, hi, rfl⟩, c, _, ⟨q, hc, rfl⟩, s, _, ⟨_, hs, rfl⟩, rfl⟩

theorem accept_header_apply (header : ClassHeader) : accept (.header header) w =
    if w.ended then .error (.write (.afterEnd (.header header))) w else writeHeader header w := by
  obtain ⟨_, _, _, _, _, _, _, _, ended⟩ := w
  cases ended <;> rfl

theorem accept_header_eq_ok : accept (.header header) w = .ok u t ↔
    w.ended = false ∧ w.header = none ∧ ∃ written pool, headerIndices header w.pool = .ok written pool ∧
      t = { w with pool, header := some written } := by
  rw [accept_header_apply, ← writeHeader_eq_ok (u := u)]
  by_cases he : w.ended = true <;> simp [he]

end ClassWriter

end ClassDoc
