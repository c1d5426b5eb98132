/-
  The class file of a class, by its elements.

  A writer takes events one by one and writes a member when the next one starts. So the class file of a class is made of
  the bytes of its elements, which put their entries into the pool one after the other.
-/
import ClassDoc.Proofs.ClassFile.Writer
namespace ClassDoc

open List

def Member.isMethod : Member → Bool
  | field _ => false
  | method _ => true

def Member.Holds (events : List ClassEvent) : Member → Prop
  | field _ => ∀ e ∈ events, e.level = .element
  | method _ => ∀ e ∈ events, e.isInMethod = true

namespace ClassWriter

variable {w t u : ClassWriter} {events : List ClassEvent} {ms : List (Member × List ClassEvent)} {member : Member}
  {e : ClassEvent}

/-! ## Events that are kept -/

theorem isInMethod_cases (h : e.isInMethod = true) : e.level = .element ∨ e.level = .method := by
  simpa [ClassEvent.isInMethod] using h

theorem isInClass_cases (h : e.isInClass = true) : e.level = .element ∨ e.level = .preamble := by
  simpa [ClassEvent.isInClass] using h

theorem Open.of_member (h : w.Open) (member : Option (Member × List ClassEvent)) : Open { w with member } :=
  ⟨h.ended, h.header⟩

theorem member_run (ho : w.Open) (hm : member.Holds events)
    (before : List ClassEvent) : events.forM accept { w with member := some (member, before) } =
      .ok () { w with member := some (member, events.reverse ++ before) } := by
  induction events generalizing before with
  | nil => rfl
  | cons e events ih =>
    have he : e.level = .element ∨ e.level = .method ∧ ∃ header, member = .method header := by
      cases member with
      | field header => exact .inl (hm e (by simp))
      | method header => exact (isInMethod_cases (hm e (by simp))).imp_right fun h => ⟨h, header, rfl⟩
    have hm' : member.Holds events := by
      cases member with
      | field header => exact fun e' he' => hm e' (mem_cons_of_mem _ he')
      | method header => exact fun e' he' => hm e' (mem_cons_of_mem _ he')
    have hk : accept e { w with member := some (member, before) } = .ok ()
        { w with member := some (member, e :: before) } := by
      refine (accept_kept_eq_ok ?_ ?_).2 ⟨ho.of_member _, ?_, rfl⟩
      · rcases he with he | ⟨he, -⟩ <;> simp [he]
      · rcases he with he | ⟨he, -⟩ <;> simp [ClassEvent.isBoundary, he]
      · rcases he with he | ⟨he, header, rfl⟩
        · rw [he]
          trivial
        · rw [he]
          exact ⟨header, before, rfl⟩
    rw [run_forM_cons]
    refine ⟨_, hk, ?_⟩
    rw [ih hm' (e :: before)]
    simp

theorem class_run (ho : w.Open) (hw : w.member = none) (he : ∀ e ∈ events, e.isInClass = true) :
    events.forM accept w = .ok () { w with events := events.reverse ++ w.events } := by
  induction events generalizing w with
  | nil => rfl
  | cons e events ih =>
    rw [forall_mem_cons] at he
    have hl := isInClass_cases he.1
    have hk : accept e w = .ok () { w with events := e :: w.events } := by
      refine (accept_kept_eq_ok ?_ ?_).2 ⟨ho, ?_, by rw [kept, hw]⟩
      · rcases hl with hl | hl <;> simp [hl]
      · rcases hl with hl | hl <;> simp [ClassEvent.isBoundary, hl]
      · rcases hl with hl | hl
        · rw [hl]
          trivial
        · rw [hl]
          exact hw
    refine run_forM_cons.2 ⟨_, hk, ?_⟩
    have h := ih (w := { w with events := e :: w.events }) ⟨ho.ended, ho.header⟩ hw he.2
    simpa using h

/-! ## Members -/

def addMember (m : Member × List ClassEvent) : WriterM Unit := fun w =>
  finishMember { w with member := some (m.1, m.2.reverse) }

theorem Open.of_finishMember (ho : w.Open) (h : ClassWriter.finishMember w = .ok () t) : t.Open := by
  rcases hm : w.member with _ | ⟨member, events⟩
  · rw [finishMember_of_none hm] at h
    cases h
    exact ho
  · obtain ⟨parts, pool, -, rfl⟩ := (finishMember_of_some hm).1 h
    cases member <;> exact ⟨ho.ended, ho.header⟩

theorem members_run (hm : ∀ m ∈ ms, m.1.Holds m.2) (ho : w.Open) :
    (∃ t, t.Open ∧ (ms.flatMap fun m => m.1.event :: m.2).forM accept w = .ok () t ∧ finishMember t = .ok () u) ↔
      ∃ r, finishMember w = .ok () r ∧ ms.forM addMember r = .ok () u := by
  induction ms generalizing w with
  | nil =>
    constructor
    · rintro ⟨t, -, ht, hu⟩
      cases ht
      exact ⟨u, hu, rfl⟩
    · rintro ⟨r, hr, hu⟩
      cases hu
      exact ⟨w, ho, rfl, hr⟩
  | cons m ms ih =>
    rw [forall_mem_cons] at hm
    have hstart : ∀ t, accept m.1.event w = .ok () t ↔
        w.Open ∧ ∃ r, finishMember w = .ok () r ∧ t = { r with member := some (m.1, []) } := fun t =>
      accept_member_eq_ok m.1
    constructor
    · rintro ⟨t, hot, ht, hu⟩
      obtain ⟨w₂, h1, h2⟩ := run_forM_append.1 ht
      obtain ⟨w₁, h0, h1⟩ := run_forM_cons.1 h1
      obtain ⟨-, r, hr, rfl⟩ := (hstart w₁).1 h0
      have hor := ho.of_finishMember hr
      rw [member_run hor hm.1, append_nil] at h1
      cases h1
      obtain ⟨r', hr', hu'⟩ := (ih hm.2 (hor.of_member _)).1 ⟨t, hot, h2, hu⟩
      exact ⟨r, hr, run_forM_cons.2 ⟨r', hr', hu'⟩⟩
    · rintro ⟨r, hr, hu⟩
      obtain ⟨r', hr', hu⟩ := run_forM_cons.1 hu
      have hor := ho.of_finishMember hr
      obtain ⟨t, hot, ht, hut⟩ := (ih hm.2 (hor.of_member _)).2 ⟨r', hr', hu⟩
      refine ⟨t, hot, run_forM_append.2
        ⟨_, run_forM_cons.2 ⟨_, (hstart _).2 ⟨ho, r, hr, rfl⟩, member_run hor hm.1 []⟩, ?_⟩, hut⟩
      rwa [append_nil]

def tagged {α : Type} (isMethod : Bool) (x : PoolM α) : PoolM (Bool × α) := do return (isMethod, ← x)

theorem tagged_eq_ok {α : Type} {isMethod : Bool} {x : PoolM α} {p q : Pool} {y : Bool × α} :
    tagged isMethod x p = .ok y q ↔ ∃ a, x p = .ok a q ∧ (isMethod, a) = y := by
  rw [tagged, run_bind_eq_ok]
  constructor
  · rintro ⟨a, r, ha, h⟩
    cases h
    exact ⟨a, ha, rfl⟩
  · rintro ⟨a, ha, rfl⟩
    exact ⟨a, q, ha, rfl⟩

def ofKind {α : Type} (areMethods : Bool) (ms : List (Bool × α)) : List α :=
  ms.filterMap fun m => if m.1 = areMethods then some m.2 else none

def withMembers (w : ClassWriter) (pool : Pool) (ms : List (Bool × List Bytes)) : ClassWriter :=
  { w with
    pool
    fieldCount := w.fieldCount + (ofKind false ms).length
    fields := (ofKind false ms).flatten.reverse ++ w.fields
    methodCount := w.methodCount + (ofKind true ms).length
    methods := (ofKind true ms).flatten.reverse ++ w.methods }

theorem withMembers_cons (hw : w.member = none) (p q : Pool) (parts : List Bytes) (ms : List (Bool × List Bytes)) :
    (withMember { w with member := some (member, events) } p parts member).withMembers q ms
      = w.withMembers q ((member.isMethod, parts) :: ms) := by
  cases member <;> simp [withMember, withMembers, ofKind, Member.isMethod, hw, Nat.add_assoc, Nat.add_comm 1]

theorem addMembers_eq_ok (hw : w.member = none) : ms.forM addMember w = .ok () u ↔
    ∃ parts pool, ms.mapM (fun m => tagged m.1.isMethod (memberParts m.2 m.1)) w.pool = .ok parts pool ∧
      u = w.withMembers pool parts := by
  induction ms generalizing w u with
  | nil =>
    constructor
    · intro h
      cases h
      exact ⟨[], _, rfl, rfl⟩
    · rintro ⟨_, _, h, rfl⟩
      cases h
      rfl
  | cons m ms ih =>
    have hnone : ∀ pool parts, (withMember { w with member := some (m.1, m.2.reverse) } pool parts m.1).member = none := by
      intro pool parts
      cases m.1 <;> rfl
    have hpool : ∀ pool parts, (withMember { w with member := some (m.1, m.2.reverse) } pool parts m.1).pool = pool := by
      intro pool parts
      cases m.1 <;> rfl
    have hm : ∀ t, addMember m w = .ok () t ↔ ∃ parts pool, memberParts m.2 m.1 w.pool = .ok parts pool ∧
        t = withMember { w with member := some (m.1, m.2.reverse) } pool parts m.1 := by
      intro t
      rw [addMember, finishMember_of_some rfl, reverse_reverse]
    simp only [run_forM_cons, hm, mapM_cons, run_bind_eq_ok, tagged_eq_ok]
    constructor
    · rintro ⟨_, ⟨parts, pool, hp, rfl⟩, h⟩
      obtain ⟨rest, pool', hr, rfl⟩ := (ih (hnone _ _)).1 h
      rw [hpool] at hr
      exact ⟨_, pool', ⟨_, pool, ⟨parts, hp, rfl⟩, rest, pool', hr, rfl⟩, withMembers_cons hw _ _ _ _⟩
    · rintro ⟨_, pool', ⟨_, pool, ⟨parts, hp, rfl⟩, rest, _, hr, h⟩, rfl⟩
      cases h
      exact ⟨_, ⟨parts, pool, hp, rfl⟩, (ih (hnone _ _)).2 ⟨rest, pool', by rwa [hpool], (withMembers_cons hw _ _ _ _).symm⟩⟩

end ClassWriter

/-! ## The class file -/

/-- The bytes that a class file is put together from. -/
structure ElementBytes where
  header : WrittenHeader
  fields : List Bytes
  methods : List Bytes
  attributes : List Attribute

def ElementBytes.encode (b : ElementBytes) (pool : Pool) : Except Fault Bytes := do
  let header ← ClassWriter.encodeHeader b.header pool
  let fieldCount ← Bytes.count2 b.fields.length
  let methodCount ← Bytes.count2 b.methods.length
  let attributes ← Attribute.encodeAll b.attributes
  return header ++ fieldCount ++ b.fields.flatten ++ methodCount ++ b.methods.flatten ++ attributes

namespace Elements

def putAll (s : Elements) : PoolM ElementBytes := do
  let header ← ClassWriter.headerIndices s.header
  let fields ← s.fields.mapM fun f => fieldBytes f.1 f.2
  let methods ← s.methods.mapM fun m => methodBytes m.1 m.2
  let attributes ← classAttributes s.events
  return ⟨header, fields, methods, attributes⟩

def members (s : Elements) : List (Member × List ClassEvent) :=
  s.fields.map (fun f => (Member.field f.1, f.2)) ++ s.methods.map fun m => (Member.method m.1, m.2)

theorem flatten_eq (s : Elements) :
    s.flatten = .header s.header :: (s.events ++ (s.members.flatMap fun m => m.1.event :: m.2) ++ [.done]) := by
  simp [flatten, members, Member.event, flatMap_append, flatMap_map]

theorem holds_members {s : Elements} (h : s.Proper) : ∀ m ∈ s.members, m.1.Holds m.2 := by
  intro m hm
  rcases mem_append.1 hm with hm | hm
  · obtain ⟨f, hf, rfl⟩ := mem_map.1 hm
    exact h.fields f hf
  · obtain ⟨x, hx, rfl⟩ := mem_map.1 hm
    exact h.methods x hx

end Elements

open ClassWriter

def putClass (header : ClassHeader) (own : List ClassEvent) (members : List (Member × List ClassEvent)) :
    PoolM ElementBytes := do
  let header ← headerIndices header
  let ms ← members.mapM fun m => tagged m.1.isMethod (memberBytes m.2 m.1)
  let attributes ← classAttributes own
  return ⟨header, ofKind false ms, ofKind true ms, attributes⟩

theorem finish_withMembers (written : WrittenHeader) (own : List ClassEvent) {p q : Pool} {ps : List (Bool × List Bytes)}
    {bytes : Bytes} :
    finish { withMembers { pool := p, header := some written, events := own.reverse } q ps with ended := true } = .ok bytes ↔
      ∃ attributes pool, classAttributes own q = .ok attributes pool ∧
        ElementBytes.encode ⟨written, ofKind false (ps.map (Prod.map id List.flatten)),
          ofKind true (ps.map (Prod.map id List.flatten)), attributes⟩ pool = .ok bytes := by
  have hkind : ∀ areMethods, ofKind areMethods (ps.map (Prod.map id List.flatten)) =
      (ofKind areMethods ps).map List.flatten := by
    intro areMethods
    rw [ofKind, ofKind, filterMap_map, map_filterMap]
    refine filterMap_congr fun m _ => ?_
    simp only [Function.comp_apply, Prod.map_fst, Prod.map_snd, id_eq]
    split <;> rfl
  simp only [finish, withMembers, ElementBytes.encode, hkind, append_nil, Nat.zero_add, reverse_reverse,
    Bool.not_true, Bool.false_eq_true, if_false, length_map, ← flatten_flatten]
  cases classAttributes own q with
  | error f pool => simp
  | ok attributes pool =>
    simp only [EStateM.Result.ok.injEq]
    constructor
    · intro h
      exact ⟨attributes, pool, ⟨rfl, rfl⟩, h⟩
    · rintro ⟨_, _, ⟨rfl, rfl⟩, h⟩
      exact h

section
variable {header : ClassHeader} {own : List ClassEvent} {members : List (Member × List ClassEvent)}
  (ho : ∀ e ∈ own, e.isInClass = true) (hm : ∀ m ∈ members, m.1.Holds m.2)
include ho hm

theorem run_class {w : ClassWriter} :
    (.header header :: (own ++ members.flatMap (fun m => m.1.event :: m.2) ++ [.done])).forM accept {} = .ok () w ↔
    ∃ written pool r, headerIndices header {} = .ok written pool ∧
      members.forM addMember { pool, header := some written, events := own.reverse } = .ok () r ∧
      w = { r with ended := true } := by
  have hclass : ∀ written pool, own.forM accept { pool, header := some written } =
      .ok () { pool, header := some written, events := own.reverse } := by
    intro written pool
    have h := class_run (w := { pool, header := some written }) ⟨rfl, rfl⟩ rfl ho
    simpa using h
  rw [run_forM_cons]
  constructor
  · rintro ⟨w₁, h1, hr⟩
    obtain ⟨-, -, written, pool, hi, rfl⟩ := accept_header_eq_ok.1 h1
    obtain ⟨w₃, h3, hd⟩ := run_forM_append.1 hr
    obtain ⟨w₂, h2, h3⟩ := run_forM_append.1 h3
    rw [hclass] at h2
    cases h2
    obtain ⟨w₄, hd, hw⟩ := run_forM_cons.1 hd
    cases hw
    obtain ⟨ho, r, hf, rfl⟩ := accept_done_eq_ok.1 hd
    obtain ⟨r', hr', hm⟩ := (members_run hm ⟨rfl, rfl⟩).1 ⟨w₃, ho, h3, hf⟩
    rw [finishMember_of_none rfl] at hr'
    cases hr'
    exact ⟨written, pool, r, hi, hm, rfl⟩
  · rintro ⟨written, pool, r, hi, hr, rfl⟩
    refine ⟨_, accept_header_eq_ok.2 ⟨rfl, rfl, written, pool, hi, rfl⟩, ?_⟩
    obtain ⟨t, ho, ht, hf⟩ := (members_run hm
      (w := { pool, header := some written, events := own.reverse }) ⟨rfl, rfl⟩).2 ⟨_, finishMember_of_none rfl, hr⟩
    exact run_forM_append.2 ⟨t, run_forM_append.2 ⟨_, hclass written pool, ht⟩,
      run_forM_cons.2 ⟨_, accept_done_eq_ok.2 ⟨ho, r, hf, rfl⟩, rfl⟩⟩

/-- **The events of a class are written exactly if its elements have bytes, and as the class file made of them.** -/
theorem writeEvents_class {bytes : Bytes} :
    writeEvents (.header header :: (own ++ members.flatMap (fun m => m.1.event :: m.2) ++ [.done])) = .ok bytes ↔
      ∃ b pool, putClass header own members {} = .ok b pool ∧ b.encode pool = .ok bytes := by
  have hrun : ∀ {es : List ClassEvent}, writeEvents es = .ok bytes ↔ ∃ w, es.forM accept {} = .ok () w ∧
      w.finish = .ok bytes := by
    intro es
    rw [writeEvents]
    cases es.forM accept {} <;> simp
  have hparts : ∀ {p bs q}, members.mapM (fun m => tagged m.1.isMethod (memberBytes m.2 m.1)) p = .ok bs q ↔
      ∃ ps, members.mapM (fun m => tagged m.1.isMethod (memberParts m.2 m.1)) p = .ok ps q ∧
        ps.map (Prod.map id List.flatten) = bs :=
    run_mapM_map_iff fun m p b q => by
      simp only [tagged_eq_ok, memberBytes_eq_ok]
      constructor
      · rintro ⟨_, ⟨parts, h, rfl⟩, rfl⟩
        exact ⟨_, ⟨parts, h, rfl⟩, rfl⟩
      · rintro ⟨_, ⟨parts, h, rfl⟩, rfl⟩
        exact ⟨_, ⟨parts, h, rfl⟩, rfl⟩
  rw [hrun]
  simp only [run_class ho hm, addMembers_eq_ok, putClass, run_bind_eq_ok, hparts]
  constructor
  · rintro ⟨_, ⟨written, p, _, hi, ⟨ps, q, hps, rfl⟩, rfl⟩, hb⟩
    obtain ⟨attributes, pool, ha, hb⟩ := (finish_withMembers written own).1 hb
    exact ⟨_, pool, ⟨written, p, hi, _, q, ⟨ps, hps, rfl⟩, attributes, pool, ha, rfl⟩, hb⟩
  · rintro ⟨_, pool, ⟨written, p, hi, _, q, ⟨ps, hps, rfl⟩, attributes, _, ha, he⟩, hb⟩
    cases he
    exact ⟨_, ⟨written, p, _, hi, ⟨ps, q, hps, rfl⟩, rfl⟩, (finish_withMembers written own).2 ⟨attributes, pool, ha, hb⟩⟩

end

theorem Elements.putAll_eq_ok {s : Elements} {p q : Pool} {b : ElementBytes} :
    putClass s.header s.events s.members p = .ok b q ↔ s.putAll p = .ok b q := by
  have hfields : ∀ {p bs q}, s.fields.mapM (fun f => tagged false (fieldBytes f.1 f.2)) p = .ok bs q ↔
      ∃ ys, s.fields.mapM (fun f => fieldBytes f.1 f.2) p = .ok ys q ∧ ys.map (Prod.mk false) = bs :=
    run_mapM_map_iff fun _ _ _ _ => tagged_eq_ok
  have hmethods : ∀ {p bs q}, s.methods.mapM (fun m => tagged true (methodBytes m.1 m.2)) p = .ok bs q ↔
      ∃ ys, s.methods.mapM (fun m => methodBytes m.1 m.2) p = .ok ys q ∧ ys.map (Prod.mk true) = bs :=
    run_mapM_map_iff fun _ _ _ _ => tagged_eq_ok
  have hkinds : ∀ fs ms : List Bytes, ofKind false (fs.map (Prod.mk false) ++ ms.map (Prod.mk true)) = fs ∧
      ofKind true (fs.map (Prod.mk false) ++ ms.map (Prod.mk true)) = ms := by
    intro fs ms
    simp [ofKind, filterMap_map]
  simp only [putClass, putAll, members, mapM_append, mapM_map, run_bind_eq_ok]
  constructor
  · rintro ⟨written, p, hi, _, _, ⟨_, _, hf, _, _, hm, hb⟩, attributes, _, ha, h⟩
    obtain ⟨fs, hfs, rfl⟩ := hfields.1 hf
    obtain ⟨ms, hms, rfl⟩ := hmethods.1 hm
    cases hb
    cases h
    rw [(hkinds fs ms).1, (hkinds fs ms).2]
    exact ⟨written, p, hi, fs, _, hfs, ms, _, hms, attributes, _, ha, rfl⟩
  · rintro ⟨written, p, hi, fs, _, hfs, ms, _, hms, attributes, _, ha, h⟩
    cases h
    refine ⟨written, p, hi, _, _, ⟨_, _, hfields.2 ⟨fs, hfs, rfl⟩, _, _, hmethods.2 ⟨ms, hms, rfl⟩, rfl⟩,
      attributes, _, ha, ?_⟩
    rw [(hkinds fs ms).1, (hkinds fs ms).2]
    rfl

theorem writeEvents_flatten {s : Elements} (h : s.Proper) {bytes : Bytes} : writeEvents s.flatten = .ok bytes ↔
    ∃ b pool, s.putAll {} = .ok b pool ∧ b.encode pool = .ok bytes := by
  simp only [s.flatten_eq, ← Elements.putAll_eq_ok]
  exact writeEvents_class h.events (Elements.holds_members h)

end ClassDoc
