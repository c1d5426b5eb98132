/-
  The two passes over the members of a class.

  The first pass goes by the lengths of the attributes, the second one by what is in them. They agree where each attribute
  takes as many bytes as its length says.
-/
import ClassDoc.Proofs.ClassFile.Reading
namespace ClassDoc

open List

variable {α β : Type} {pool : PoolView} {count : Nat} {e : ClassEvent} {part : String → Nat → ReadM (Option Part)}
  {site : MemberSite} {d : Decode α} {sites : List AttributeSite} {i j : Input} {p : α → Bool} {xs ys : List α}

/-! ## Inputs -/

def Input.skip (i : Input) (size : Nat) : Input := ⟨i.rest.drop size, i.position + size⟩

@[simp] theorem Input.skip_skip (i : Input) (m n : Nat) : (i.skip m).skip n = i.skip (m + n) := by
  simp [skip, Nat.add_assoc]

theorem skip_eq_ok {size : Nat} {u : Unit} (h : Decode.skip size i = .ok (u, j)) : j = i.skip size := by
  cases h
  rfl

theorem u2_eq_ok {n : UInt16} (h : Decode.u2 i = .ok (n, j)) : j = i.skip 2 := by
  obtain ⟨rest, position⟩ := i
  rcases rest with _ | ⟨a, _ | ⟨b, rest⟩⟩
  · cases h
  · cases h
  · cases h
    rfl

theorem decodeIndex_eq_ok {get : UInt16 → Except Fault α} {a : α} (h : decodeIndex get i = .ok (a, j)) :
    j = i.skip 2 ∧ ∃ n, Decode.u2 i = .ok (n, j) ∧ get n = .ok a := by
  obtain ⟨n, hn, hg⟩ := exists_of_decodeIndex h
  exact ⟨u2_eq_ok hn, n, hn, hg⟩

/-! ## The first pass -/

/-- An attribute as the first pass sees it: only its length is used. -/
structure AttributeSite where
  name : UInt16
  length : Nat
  content : Input

/-- A member as the first pass sees it. -/
structure MemberSite where
  start : Input
  attributes : List AttributeSite

def attributeSite : Decode AttributeSite := do
  let name ← Decode.u2
  let length ← Decode.u4
  let content ← get
  Decode.skip length.toNat
  return ⟨name, length.toNat, content⟩

def memberSite : Decode MemberSite := do
  let start ← get
  Decode.skip 6
  let attributes ← Decode.list attributeSite
  return ⟨start, attributes⟩

def memberSites : Decode (List MemberSite) := Decode.list memberSite

/-- The decoders take the same bytes. -/
def SameTaken (d : Decode α) (e : Decode β) : Prop :=
  ∀ i j, (∃ a, d i = .ok (a, j)) ↔ ∃ b, e i = .ok (b, j)

namespace SameTaken

variable {γ δ : Type} {d : Decode α} {e : Decode β} {f : α → Decode γ}

theorem refl (d : Decode α) : SameTaken d d := fun _ _ => Iff.rfl

theorem bind {g : β → Decode δ} (h : SameTaken d e) (hf : ∀ a b, SameTaken (f a) (g b)) :
    SameTaken (d >>= f) (e >>= g) := by
  intro i k
  simp only [decode_bind_eq_ok]
  constructor
  · rintro ⟨c, a, j, ha, hc⟩
    obtain ⟨b, hb⟩ := (h i j).1 ⟨a, ha⟩
    obtain ⟨c', hc'⟩ := (hf a b j k).1 ⟨c, hc⟩
    exact ⟨c', b, j, hb, hc'⟩
  · rintro ⟨c, b, j, hb, hc⟩
    obtain ⟨a, ha⟩ := (h i j).2 ⟨b, hb⟩
    obtain ⟨c', hc'⟩ := (hf a b j k).2 ⟨c, hc⟩
    exact ⟨c', a, j, ha, hc'⟩

theorem bind_right {g : α → Decode δ} (hf : ∀ a, SameTaken (f a) (g a)) : SameTaken (d >>= f) (d >>= g) := by
  intro i k
  simp only [decode_bind_eq_ok]
  constructor
  · rintro ⟨c, a, j, ha, hc⟩
    obtain ⟨c', hc'⟩ := (hf a j k).1 ⟨c, hc⟩
    exact ⟨c', a, j, ha, hc'⟩
  · rintro ⟨c, a, j, ha, hc⟩
    obtain ⟨c', hc'⟩ := (hf a j k).2 ⟨c, hc⟩
    exact ⟨c', a, j, ha, hc'⟩

theorem map_left {f : α → γ} (h : SameTaken d e) : SameTaken (d >>= fun a => pure (f a)) e := by
  intro i k
  simp only [decode_bind_eq_ok]
  constructor
  · rintro ⟨c, a, j, ha, hc⟩
    cases hc
    exact (h i k).1 ⟨a, ha⟩
  · intro hb
    obtain ⟨a, ha⟩ := (h i k).2 hb
    exact ⟨f a, a, k, ha, rfl⟩

theorem symm (h : SameTaken d e) : SameTaken e d := fun i j => (h i j).symm

theorem get_right {g : Input → Decode β} (h : ∀ i, SameTaken d (g i)) : SameTaken d (get >>= g) :=
  fun i j => h i i j

theorem timesFrom (h : SameTaken d e) (count : Nat) (found : List α) (found' : List β) :
    SameTaken (Decode.timesFrom d count found) (Decode.timesFrom e count found') := by
  induction count generalizing found found' with
  | zero =>
    intro i j
    simp [Decode.timesFrom]
  | succ count ih =>
    rw [timesFrom_succ, timesFrom_succ]
    exact bind h fun _ _ => ih _ _

theorem list (h : SameTaken d e) : SameTaken (Decode.list d) (Decode.list e) :=
  bind_right fun _ => timesFrom h _ _ _

end SameTaken

theorem sameTaken_attributes : SameTaken skipAttributes (Decode.list attributeSite) := by
  refine .map_left (.list (.bind_right fun _ => .bind_right fun _ => .get_right fun _ => ?_))
  exact (.map_left (.refl _) : SameTaken _ _).symm

theorem sameTaken_members : SameTaken skipMembers memberSites := by
  refine .map_left (.list (.get_right fun _ => .bind_right fun _ => ?_))
  exact (.map_left sameTaken_attributes.symm : SameTaken _ _).symm

/-! ## The second pass -/

theorem timesFrom_eq_ok {found : List α} (h : Decode.timesFrom d count found i = .ok (ys, j)) :
    ∃ xs, Decode.timesFrom d count [] i = .ok (xs, j) ∧ ys = found.reverse ++ xs := by
  induction count generalizing found i ys with
  | zero =>
    cases h
    exact ⟨[], rfl, by simp⟩
  | succ count ih =>
    rw [timesFrom_succ] at h ⊢
    obtain ⟨a, k, ha, h⟩ := decode_bind_eq_ok.1 h
    obtain ⟨xs, hx, rfl⟩ := ih h
    obtain ⟨zs, hz⟩ : ∃ zs, Decode.timesFrom d count [a] k = .ok (zs, j) :=
      ((SameTaken.refl d).timesFrom count [] [a] k j).1 ⟨xs, hx⟩
    obtain ⟨xs', hx', rfl⟩ := ih hz
    obtain ⟨rfl, -⟩ := Prod.mk.inj (Except.ok.inj (hx.symm.trans hx'))
    exact ⟨a :: xs, decode_bind_eq_ok.2 ⟨a, k, ha, hz⟩, by simp⟩

theorem times_succ_eq_ok (h : Decode.times (count + 1) d i = .ok (ys, j)) :
    ∃ a xs k, d i = .ok (a, k) ∧ Decode.times count d k = .ok (xs, j) ∧ ys = a :: xs := by
  rw [Decode.times, timesFrom_succ] at h
  obtain ⟨a, k, ha, h⟩ := decode_bind_eq_ok.1 h
  obtain ⟨xs, hx, rfl⟩ := timesFrom_eq_ok h
  exact ⟨a, xs, k, ha, hx, rfl⟩

theorem length_times (h : Decode.times count d i = .ok (xs, j)) : xs.length = count := by
  induction count generalizing i xs with
  | zero => cases h; rfl
  | succ count ih =>
    obtain ⟨a, xs, k, -, hx, rfl⟩ := times_succ_eq_ok h
    simp [ih hx]

/-- Where the attribute is read, it ends where its length says. -/
def AttributeSite.Fits (a : AttributeSite) (pool : PoolView) (part : String → Nat → ReadM (Option Part)) : Prop :=
  ∀ name, pool.utf8 a.name = .ok name → ∀ items o s, part name a.length (a.content, items) = .ok o s →
    s.1 = a.content.skip a.length

theorem attributeSite_eq_ok {site : AttributeSite} (h : attributeSite i = .ok (site, j)) :
    ∃ length, Decode.u2 i = .ok (site.name, i.skip 2) ∧ Decode.u4 (i.skip 2) = .ok (length, site.content) ∧
      site.length = length.toNat ∧ j = site.content.skip site.length := by
  obtain ⟨name, k, hn, h⟩ := decode_bind_eq_ok.1 h
  obtain rfl := u2_eq_ok hn
  obtain ⟨length, content, hl, h⟩ := decode_bind_eq_ok.1 h
  cases h
  exact ⟨length, hn, hl, rfl, rfl⟩

theorem Chain.stop {At : Input → α → Input → Prop} {d : Decode β} {P : β → Prop} {as : List α} {bs : List β} {k : Input}
    (h : Chain At i as k) (hs : Decode.times as.length d i = .ok (bs, j)) (hp : ∀ b ∈ bs, P b)
    (hx : ∀ i j k a b, At i a k → d i = .ok (b, j) → P b → k = j) : k = j := by
  induction h generalizing bs with
  | nil =>
    cases hs
    rfl
  | cons head _ ih =>
    obtain ⟨b, bs, k, hb, hs, rfl⟩ := times_succ_eq_ok hs
    obtain rfl := hx _ _ _ _ _ head hb (hp b (by simp))
    exact ih hs fun b hb => hp b (by simp [hb])

theorem ListAt.stop {At : Input → α → Input → Prop} {d : Decode β} {P : β → Prop} {as : List α} {bs : List β} {k : Input}
    (h : ListAt At i as k) (hs : Decode.list d i = .ok (bs, j)) (hp : ∀ b ∈ bs, P b)
    (hx : ∀ i j k a b, At i a k → d i = .ok (b, j) → P b → k = j) : k = j ∧ as.length = bs.length := by
  obtain ⟨n, l, hn, hlen, hc⟩ := h
  obtain ⟨n', l', hn', hs⟩ := decode_bind_eq_ok.1 hs
  obtain ⟨rfl, rfl⟩ := Prod.mk.inj (Except.ok.inj (hn.symm.trans hn'))
  exact ⟨hc.stop (hlen ▸ hs) hp hx, by rw [hlen, length_times hs]⟩

theorem AttributeRead.At.stop {a : AttributeRead Part} {k : Input} {site : AttributeSite} (h : a.At pool part i k)
    (hs : attributeSite i = .ok (site, j)) (hf : site.Fits pool part) : k = j := by
  obtain ⟨length, hn, hl, hlen, rfl⟩ := attributeSite_eq_ok hs
  obtain ⟨l, length', hname, hl', hlen', items, new, hran, -⟩ := h
  obtain ⟨rfl, n, hn', hname⟩ := decodeIndex_eq_ok hname
  obtain ⟨rfl, -⟩ := Prod.mk.inj (Except.ok.inj (hn.symm.trans hn'))
  obtain ⟨rfl, hcontent⟩ := Prod.mk.inj (Except.ok.inj (hl.symm.trans hl'))
  rw [← hcontent, hlen', ← hlen] at hran
  exact hf _ hname items _ _ hran

theorem utf8_congr {V W : PoolView} (h : V.entries = W.entries) (index : UInt16) : V.utf8 index = W.utf8 index := by
  simp only [PoolView.utf8, PoolView.text, PoolView.entry, h]

/-- A signature in a field takes two bytes. -/
theorem AttributeSite.fits_signature {a : AttributeSite} {pool : PoolView} {name descriptor : String}
    (hn : pool.utf8 a.name = .ok Attribute.signatureName) (hl : a.length = 2) :
    a.Fits pool (fieldPart pool name descriptor) := by
  have hread : Gives (fieldPart pool name descriptor Attribute.signatureName a.length) a.content fun _ j _ =>
      j = a.content.skip 2 := by
    have hany : Gives (readAnyPart pool Attribute.signatureName) a.content fun o j _ =>
        (∃ p, o = some p) ∧ j = a.content.skip 2 :=
      .take_bind fun _ _ hs => .pure ⟨⟨_, rfl⟩, (decodeIndex_eq_ok hs).1⟩
    refine hany.bind fun o j _ ho => ?_
    obtain ⟨⟨p, rfl⟩, hj⟩ := ho
    exact .pure hj
  intro found hfound items o s hs
  obtain rfl := Except.ok.inj (hn.symm.trans hfound)
  obtain ⟨-, -, hstop⟩ := hread items o s hs
  rw [hl, hstop]

/-- All the attributes of the member fit. -/
def MemberSite.Fits (m : MemberSite) (pool : PoolView) (part : String → String → String → Nat → ReadM (Option Part)) :
    Prop :=
  ∀ name descriptor j k, decodeIndex pool.utf8 (m.start.skip 2) = .ok (name, j) →
    decodeIndex pool.utf8 (m.start.skip 4) = .ok (descriptor, k) → ∀ a ∈ m.attributes, a.Fits pool (part name descriptor)

theorem memberSite_eq_ok (h : memberSite i = .ok (site, j)) :
    site.start = i ∧ Decode.list attributeSite (i.skip 6) = .ok (site.attributes, j) := by
  obtain ⟨start, k, hk, h⟩ := decode_bind_eq_ok.1 h
  cases hk
  obtain ⟨_, k, hk, h⟩ := decode_bind_eq_ok.1 h
  obtain rfl := skip_eq_ok hk
  obtain ⟨attributes, k, ha, h⟩ := decode_bind_eq_ok.1 h
  cases h
  exact ⟨rfl, ha⟩

theorem MemberRead.At.stop {m : MemberRead} {k : Input} {part : String → String → String → Nat → ReadM (Option Part)}
    (h : m.At pool part i k) (hs : memberSite i = .ok (site, j)) (hf : site.Fits pool part) : k = j := by
  obtain ⟨rfl, hs⟩ := memberSite_eq_ok hs
  obtain ⟨i₁, i₂, i₃, h₁, h₂, h₃, ha⟩ := h
  obtain rfl := u2_eq_ok h₁
  obtain ⟨rfl, -⟩ := decodeIndex_eq_ok h₂
  obtain ⟨rfl, -⟩ := decodeIndex_eq_ok h₃
  simp only [Input.skip_skip] at h₃ ha
  exact (ha.stop hs (hf _ _ _ _ h₂ h₃) fun _ _ _ _ _ => AttributeRead.At.stop).1

/-! ## Both passes -/

def ClassEvent.isField : ClassEvent → Bool
  | field _ => true
  | _ => false

def ClassEvent.isMethod : ClassEvent → Bool
  | method _ => true
  | _ => false

theorem isField_of_isInClass (h : e.isInClass = true) : e.isField = false := by
  cases e <;> first | rfl | cases h

theorem isMethod_of_isInClass (h : e.isInClass = true) : e.isMethod = false := by
  cases e <;> first | rfl | cases h

theorem isMethod_of_isInMethod (h : e.isInMethod = true) : e.isMethod = false := by
  cases e <;> first | rfl | cases h

theorem isField_of_isInMethod (h : e.isInMethod = true) : e.isField = false := by
  cases e <;> first | rfl | cases h

theorem countP_flatten_eq {n : Nat} {groups : List (List α)} (h : ∀ g ∈ groups, g.countP p = n) :
    groups.flatten.countP p = groups.length * n := by
  induction groups with
  | nil => simp
  | cons g groups ih =>
    rw [flatten_cons, countP_append, h g (by simp), ih fun g hg => h g (by simp [hg]), length_cons]
    ring

theorem Elements.countP_flatten {s : Elements} (h : s.Proper) : s.flatten.countP ClassEvent.isField = s.fields.length ∧
    s.flatten.countP ClassEvent.isMethod = s.methods.length := by
  have hcount : ∀ {γ : Type} (p : ClassEvent → Bool) (member : γ → ClassEvent) (n : Nat) (ms : List (γ × List ClassEvent)),
      (∀ a, [member a].countP p = n) → (∀ m ∈ ms, ∀ e ∈ m.2, p e = false) →
      (ms.flatMap fun m => member m.1 :: m.2).countP p = ms.length * n := by
    intro γ p member n ms hm he
    rw [flatMap_def, countP_flatten_eq (n := n), length_map]
    intro g hg
    obtain ⟨m, hmem, rfl⟩ := mem_map.1 hg
    rw [← singleton_append, countP_append, hm,
      countP_eq_zero.2 fun e hin => ne_true_of_eq_false (he m hmem e hin), Nat.add_zero]
  have hclass : ∀ e : ClassEvent, e.level = .element → e.isInClass = true := fun e he => by
    simp [ClassEvent.isInClass, he]
  have hf := hcount ClassEvent.isField ClassEvent.field 1 s.fields (fun _ => rfl) fun f hf e he =>
    isField_of_isInClass (hclass e (h.fields f hf e he))
  have hf' := hcount ClassEvent.isMethod ClassEvent.field 0 s.fields (fun _ => rfl) fun f hf e he =>
    isMethod_of_isInClass (hclass e (h.fields f hf e he))
  have hm := hcount ClassEvent.isField ClassEvent.method 0 s.methods (fun _ => rfl) fun m hm e he =>
    isField_of_isInMethod (h.methods m hm e he)
  have hm' := hcount ClassEvent.isMethod ClassEvent.method 1 s.methods (fun _ => rfl) fun m hm e he =>
    isMethod_of_isInMethod (h.methods m hm e he)
  have he := countP_eq_zero.2 fun e he => ne_true_of_eq_false (isField_of_isInClass (h.events e he))
  have he' := countP_eq_zero.2 fun e he => ne_true_of_eq_false (isMethod_of_isInClass (h.events e he))
  simp [Elements.flatten, hf, hf', hm, hm', he, he', ClassEvent.isField, ClassEvent.isMethod]

/-- The members that the first pass skips. -/
structure FirstPass.Sites {start : Input} (first : FirstPass start) where
  fieldSites : List MemberSite
  methodSites : List MemberSite
  fields_eq : memberSites first.fields = .ok (fieldSites, first.methods)
  methods_eq : memberSites first.methods = .ok (methodSites, first.after)

theorem FirstPass.exists_sites {start : Input} (first : FirstPass start) : Nonempty first.Sites := by
  obtain ⟨fields, hf⟩ := (sameTaken_members first.fields first.methods).1 ⟨(), first.skips⟩
  obtain ⟨methods, hm⟩ := (sameTaken_members first.methods first.after).1 ⟨(), first.skipsMethods⟩
  exact ⟨⟨fields, methods, hf, hm⟩⟩

theorem exists_count {sites : List MemberSite} (h : memberSites i = .ok (sites, j)) :
    ∃ count k, Decode.u2 i = .ok (count, k) ∧ sites.length = count.toNat := by
  obtain ⟨n, k, hn, hs⟩ := decode_bind_eq_ok.1 h
  exact ⟨n, k, hn, length_times hs⟩

/-- **The second pass finds as many fields as the first one. If the attributes of the members take as many bytes as their
lengths say, it also finds as many methods, and ends where the first pass ends.** -/
theorem readEvents_members {bytes : Bytes} {events : List ClassEvent} (h : readEvents bytes = .ok events) :
    ∃ (first : FirstPass { rest := bytes }) (sites : first.Sites) (fieldCount methodCount : UInt16) (i j : Input)
      (pool : PoolView) (stop : Input) (rest : List ClassEvent) (items new : List TraceItem),
      Decode.u2 first.fields = .ok (fieldCount, i) ∧ Decode.u2 first.methods = .ok (methodCount, j) ∧
      pool.entries = first.pool.entries ∧ readMembers pool (first.fields, items) = .ok () (stop, new ++ items) ∧
      events = .header first.header :: (rest ++ eventsIn new ++ [.done]) ∧
      events.countP ClassEvent.isField = fieldCount.toNat ∧
      ((∀ m ∈ sites.fieldSites, m.Fits pool (fieldPart pool)) →
        (∀ m ∈ sites.methodSites, m.Fits pool (readMethodPart pool)) →
        events.countP ClassEvent.isMethod = methodCount.toNat ∧ stop = first.after) := by
  obtain ⟨c, hflat, inner, ⟨items, new, hran, rfl⟩, hevents⟩ := exists_classRead h
  obtain ⟨sites⟩ := c.first.exists_sites
  obtain ⟨count, k', hcount, hlen⟩ := exists_count sites.methods_eq
  obtain ⟨hfields, hmethods⟩ := Elements.countP_flatten c.proper
  obtain ⟨n, k, hn, hl, -⟩ := c.fieldsAt
  refine ⟨c.first, sites, n, count, k, k', c.view, c.stop, c.events, items, new, hn, hcount, rfl, hran, hevents, ?_,
    fun hf hms => ?_⟩
  · rw [hflat, hfields, ClassRead.elements, length_map, hl]
  · obtain ⟨hmid, -⟩ := c.fieldsAt.stop sites.fields_eq hf fun _ _ _ _ _ => MemberRead.At.stop
    obtain ⟨hend, hc⟩ := (hmid ▸ c.methodsAt).stop sites.methods_eq hms fun _ _ _ _ _ h => h.member.stop
    exact ⟨by rw [hflat, hmethods, ClassRead.elements, length_map, hc, hlen], hend⟩

/-! ## A class with a field and a method -/

/-- A class file with a field `f` that has a signature, and a method `m`. The signature attribute has the content after its
length. -/
def memberClass (content : Bytes) : Bytes :=
  [202, 254, 186, 190, 0, 0, 0, 52, 0, 8, 1, 0, 1, 65, 7, 0, 1, 1, 0, 1, 102, 1, 0, 1, 73,
    1, 0, 9, 83, 105, 103, 110, 97, 116, 117, 114, 101, 1, 0, 1, 109, 1, 0, 3, 40, 41, 86,
    0, 33, 0, 2, 0, 0, 0, 0, 0, 1, 0, 0, 0, 3, 0, 4, 0, 1, 0, 5] ++ content ++
  [0, 1, 4, 0, 0, 6, 0, 7, 0, 0, 0, 0]

/-- The first pass over the class finds a signature of two bytes at the field, and no attribute at the method. -/
theorem sites_memberClass {first : FirstPass { rest := memberClass [0, 0, 0, 2, 0, 4] }} (sites : first.Sites) :
    (∀ m ∈ sites.fieldSites, ∀ a ∈ m.attributes, first.pool.utf8 a.name = .ok Attribute.signatureName ∧ a.length = 2) ∧
      (∀ m ∈ sites.methodSites, m.attributes = []) ∧ sites.methodSites.length = 1 := by
  have hran : ∃ r, (decodePreamble >>= fun p => memberSites >>= fun fs => memberSites >>= fun ms => pure (p.1, fs, ms))
      { rest := memberClass [0, 0, 0, 2, 0, 4] } = .ok r ∧
      (∀ m ∈ r.1.2.1, ∀ a ∈ m.attributes, r.1.1.utf8 a.name = .ok Attribute.signatureName ∧ a.length = 2) ∧
      (∀ m ∈ r.1.2.2, m.attributes = []) ∧ r.1.2.2.length = 1 := by
    decide +kernel
  obtain ⟨⟨_, _⟩, hr, h⟩ := hran
  obtain ⟨_, _, hp, hr⟩ := decode_bind_eq_ok.1 hr
  cases hp.symm.trans first.decodes
  obtain ⟨_, _, hf, hr⟩ := decode_bind_eq_ok.1 hr
  cases hf.symm.trans sites.fields_eq
  obtain ⟨_, _, hm, hr⟩ := decode_bind_eq_ok.1 hr
  cases hm.symm.trans sites.methods_eq
  cases hr
  exact h

theorem readEvents_members_fitting : ∃ events, readEvents (memberClass [0, 0, 0, 2, 0, 4]) = .ok events ∧
    ∃ (first : FirstPass { rest := memberClass [0, 0, 0, 2, 0, 4] }) (sites : first.Sites) (fieldCount : UInt16)
      (pool : PoolView) (i stop : Input),
      Decode.u2 first.fields = .ok (fieldCount, i) ∧ events.countP ClassEvent.isField = fieldCount.toNat ∧
      (∀ m ∈ sites.fieldSites, m.Fits pool (fieldPart pool)) ∧
      (∀ m ∈ sites.methodSites, m.Fits pool (readMethodPart pool)) ∧
      events.countP ClassEvent.isMethod = 1 ∧ stop = first.after := by
  obtain ⟨events, hok⟩ : ∃ events, readEvents (memberClass [0, 0, 0, 2, 0, 4]) = .ok events :=
    exists_eq_ok.2 (by decide +kernel)
  obtain ⟨first, sites, fieldCount, _, i, _, pool, stop, -, -, -, hfields, hmethods, hpool, -, -, hcount, hfits⟩ :=
    readEvents_members hok
  obtain ⟨hsignature, hnone, hone⟩ := sites_memberClass sites
  have hf : ∀ m ∈ sites.fieldSites, m.Fits pool (fieldPart pool) := fun m hm _ _ _ _ _ _ a ha =>
    AttributeSite.fits_signature ((utf8_congr hpool _).trans (hsignature m hm a ha).1) (hsignature m hm a ha).2
  have hms : ∀ m ∈ sites.methodSites, m.Fits pool (readMethodPart pool) := by
    intro m hm _ _ _ _ _ _ a ha
    rw [hnone m hm] at ha
    cases ha
  obtain ⟨hmethod, hstop⟩ := hfits hf hms
  obtain ⟨_, _, hc, hlen⟩ := exists_count sites.methods_eq
  cases hc.symm.trans hmethods
  exact ⟨events, hok, first, sites, fieldCount, pool, i, stop, hfields, hcount, hf, hms,
    by rw [hmethod, ← hlen, hone], hstop⟩
/-- A signature that is two bytes shorter than the length says makes the second pass read the number of methods from the
bytes left over: the class has a method by the first pass, and none in the events. -/
theorem readEvents_members_stray :
    ((readEvents (memberClass [0, 0, 0, 4, 0, 4, 0, 0])).toOption.map fun es => es.countP ClassEvent.isMethod) = some 0 ∧
    ((decodePreamble >>= fun _ => skipMembers >>= fun _ => Decode.u2)
      { rest := memberClass [0, 0, 0, 4, 0, 4, 0, 0] }).toOption.map Prod.fst = some 1 := by
  decide +kernel

end ClassDoc
