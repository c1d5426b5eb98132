/-
  Rebuilding a tree from its tags.

  Tags are nested as nodes are, so the tags of a tree determine it apart from the texts. Texts between tags, wherever they
  are, only change texts of nodes. A name that is read back has lost its prefix.
-/
import ClassDoc.Document.Xml
import ClassDoc.Proofs.Fault
namespace ClassDoc

open List

/-! ## Trees without texts -/

mutual

/-- The node without texts, at any depth. -/
def Node.bare : Node → Node
  | ⟨kind, attributes, children, _⟩ => ⟨kind, attributes, Node.bareAll children, none⟩

def Node.bareAll : List Node → List Node
  | [] => []
  | n :: rest => n.bare :: Node.bareAll rest

end

mutual

/-- The node with every kind and every name of an attribute changed, at any depth. -/
def Node.mapNames (f : String → String) : Node → Node
  | ⟨kind, attributes, children, text⟩ =>
    ⟨f kind, attributes.map fun a => (f a.1, a.2), Node.mapNamesAll f children, text⟩

def Node.mapNamesAll (f : String → String) : List Node → List Node
  | [] => []
  | n :: rest => n.mapNames f :: Node.mapNamesAll f rest

end

mutual

/-- The kinds and the names of attributes, at any depth. -/
def Node.names : Node → List String
  | ⟨kind, attributes, children, _⟩ => kind :: (attributes.map Prod.fst ++ Node.namesAll children)

def Node.namesAll : List Node → List String
  | [] => []
  | n :: rest => n.names ++ Node.namesAll rest

end

theorem Node.bareAll_eq (ns : List Node) : bareAll ns = ns.map bare := by
  induction ns with
  | nil => rfl
  | cons n ns ih => rw [bareAll, ih, map_cons]

theorem Node.map_names_eq_self {f : String → String} (attributes : List (String × String)) :
    (attributes.map fun a => (f a.1, a.2)) = attributes ↔ ∀ name ∈ attributes.map Prod.fst, f name = name := by
  induction attributes with
  | nil => simp
  | cons a attributes ih => simp [Prod.ext_iff, ih]

mutual

theorem Node.mapNames_bare_eq_iff {f : String → String} : (n : Node) →
    (n.bare.mapNames f = n.bare ↔ ∀ name ∈ n.names, f name = name)
  | ⟨kind, attributes, children, text⟩ => by
    simp only [bare, mapNames, names, Node.mk.injEq, map_names_eq_self, mapNamesAll_bareAll_eq_iff children,
      forall_mem_cons, forall_mem_append, and_true]

theorem Node.mapNamesAll_bareAll_eq_iff {f : String → String} : (ns : List Node) →
    (mapNamesAll f (bareAll ns) = bareAll ns ↔ ∀ name ∈ namesAll ns, f name = name)
  | [] => by simp [bareAll, mapNamesAll, namesAll]
  | n :: rest => by
    simp only [bareAll, mapNamesAll, namesAll, cons.injEq, mapNames_bare_eq_iff n, mapNamesAll_bareAll_eq_iff rest,
      forall_mem_append]

end

namespace Xml

def Event.isTag {N : Type} : Event N → Bool
  | text _ => false
  | _ => true

/-- The event with its names changed. -/
def Event.map {N M : Type} (f : N → M) : Event N → Event M
  | start name attributes => start (f name) (attributes.map fun a => (f a.1, a.2))
  | text s => text s
  | stop name => stop (f name)

/-- The name that a text stands for: what is before the first colon is the prefix. -/
def QName.ofText (text : String) : QName :=
  match text.toList.span (· != ':') with
  | (name, []) => { name }
  | (space, _ :: name) => { space := some space, name }

/-- The text without its prefix. -/
def localPart (text : String) : String := (QName.ofText text).localName

/-- Only a text without a colon is its own local part. -/
theorem localPart_eq_self (text : String) : localPart text = text ↔ ':' ∉ text.toList := by
  have hspan := span_eq_takeWhile_dropWhile (fun c : Char => c != ':') text.toList
  have hjoin := takeWhile_append_dropWhile (p := fun c : Char => c != ':') (l := text.toList)
  rw [localPart, QName.ofText, hspan]
  cases hd : text.toList.dropWhile (fun c => c != ':') with
  | nil =>
    rw [hd, append_nil] at hjoin
    have hall := dropWhile_eq_nil_iff.1 hd
    refine iff_of_true ?_ ?_
    · simp [QName.localName, hjoin]
    · intro hc
      simpa using hall _ hc
  | cons c name =>
    -- what is left is shorter than the text
    rw [hd] at hjoin
    refine iff_of_false ?_ ?_
    · intro he
      have hl := congrArg (fun t : String => t.toList.length) he
      have hj := congrArg List.length hjoin
      simp only [QName.localName, String.toList_ofList, length_append, length_cons] at hl hj
      omega
    · intro hn
      have hc := dropWhile_get_zero_not (fun c : Char => c != ':') text.toList (by simp [hd])
      have hm : c ∈ text.toList := by rw [← hjoin]; simp
      simp [hd] at hc
      exact hn (hc ▸ hm)

mutual

theorem filter_eventsOf : (n : Node) → (eventsOf n).filter Event.isTag = eventsOf n.bare
  | ⟨kind, attributes, children, text⟩ => by
    cases text <;>
      simp [eventsOf, Node.bare, textEvents, filter_cons, filter_append, filter_eventsOfAll children, Event.isTag]

theorem filter_eventsOfAll : (ns : List Node) → (eventsOfAll ns).filter Event.isTag = eventsOfAll (Node.bareAll ns)
  | [] => rfl
  | n :: rest => by simp [eventsOfAll, Node.bareAll, filter_eventsOf n, filter_eventsOfAll rest]

end

/-! ## Building -/

def Partial.bare (p : Partial) : Partial := { p with children := Node.bareAll p.children, text := none }

namespace Building

def bare (b : Building) : Building := ⟨b.stack.map Partial.bare, b.root.map Node.bare⟩

theorem bare_close (p : Partial) : p.close.bare = p.bare.close := by
  simp [Partial.close, Partial.bare, Node.bare, Node.bareAll_eq]

theorem step_text (b : Building) (s : String) : (b.step (.text s)).map bare = .ok b.bare := by
  obtain ⟨stack, root⟩ := b
  cases stack <;> rfl

theorem step_tag (b : Building) {e : Event QName} (he : e.isTag = true) : (b.step e).map bare = b.bare.step e := by
  obtain ⟨stack, root⟩ := b
  cases e with
  | start name attributes => cases root <;> rfl
  | text s => cases he
  | stop kind =>
    rcases stack with _ | ⟨p, _ | ⟨q, rest⟩⟩
    · rfl
    · simp [step, bare, bare_close, Except.map]
    · simp [step, bare, Partial.bare, bare_close, Except.map, Node.bareAll]

theorem foldlM_bare (events : List (Event QName)) (b : Building) :
    (events.foldlM step b).map bare = (events.filter Event.isTag).foldlM step b.bare := by
  induction events generalizing b with
  | nil => rfl
  | cons e events ih =>
    rw [foldlM_cons]
    cases he : e.isTag with
    | true =>
      rw [filter_cons_of_pos he, foldlM_cons, ← step_tag b he]
      cases b.step e with
      | ok next => exact ih next
      | error f => rfl
    | false =>
      rw [filter_cons_of_neg (by simp [he])]
      cases e with
      | text s =>
        have hs := step_text b s
        cases hb : b.step (.text s) with
        | ok next =>
          rw [hb] at hs
          exact (ih next).trans (by rw [Except.ok.inj hs])
        | error f => simp [hb, Except.map] at hs
      | _ => cases he

def add (b : Building) (n : Node) : Building :=
  match b.stack with
  | [] => { b with root := some n }
  | p :: rest => { b with stack := { p with children := n :: p.children } :: rest }

/-- What is built from the tags of a tree whose names are read as texts are. -/
theorem foldlM_textEvents (kind : String) (attributes : List (String × String)) (rest : List Partial)
    (text : Option String) :
    ((textEvents text).map (Event.map QName.ofText)).foldlM step ⟨⟨kind, attributes, [], none⟩ :: rest, none⟩
      = .ok ⟨⟨kind, attributes, [], text⟩ :: rest, none⟩ := by
  cases text <;> simp [textEvents, Event.map, step]

mutual

theorem foldlM_eventsOf : (n : Node) → (stack : List Partial) →
    ((eventsOf n).map (Event.map QName.ofText)).foldlM step ⟨stack, none⟩
      = .ok (add ⟨stack, none⟩ (n.mapNames localPart))
  | ⟨kind, attributes, children, text⟩, stack => by
    have hkind : (QName.ofText kind).localName = localPart kind := rfl
    have hnames : (attributes.map fun a => (QName.ofText a.1, a.2)).map (fun a => (a.1.localName, a.2))
        = attributes.map fun a => (localPart a.1, a.2) := by
      rw [map_map]
      rfl
    have hc := foldlM_eventsOfAll children
      ⟨localPart kind, attributes.map fun a => (localPart a.1, a.2), [], text⟩ stack
    rw [eventsOf, map_cons, foldlM_cons]
    simp only [Event.map, step, Option.isSome_none, Bool.false_eq_true, if_false, ok_bind, map_append, foldlM_append,
      hkind, hnames, foldlM_textEvents, hc]
    cases stack <;> simp [step, Event.map, add, Partial.close, Node.mapNames]

theorem foldlM_eventsOfAll : (ns : List Node) → (p : Partial) → (rest : List Partial) →
    ((eventsOfAll ns).map (Event.map QName.ofText)).foldlM step ⟨p :: rest, none⟩
      = .ok ⟨{ p with children := (Node.mapNamesAll localPart ns).reverse ++ p.children } :: rest, none⟩
  | [], p, rest => rfl
  | n :: ns, p, rest => by
    rw [eventsOfAll, map_append, foldlM_append, foldlM_eventsOf n, ok_bind]
    exact (foldlM_eventsOfAll ns _ rest).trans (by simp [Node.mapNamesAll])

end

end Building

/-- If the events are written, then the text with a line end after it is read without a mistake, and the tags that were
written are reported in order, with their prefixes. Any texts may be reported in between. -/
def Library.ReadsBack (library : Library) (events : List (Event String)) : Prop :=
  ∀ text, library.write events = some text →
    (library.read (text ++ "\n")).2 = true ∧
      (library.read (text ++ "\n")).1.filter Event.isTag = (events.filter Event.isTag).map (Event.map QName.ofText)

end Xml

namespace Node

theorem bare_ofXmlWith {library : Xml.Library} {root : Node} {xml : String}
    (hback : library.ReadsBack (Xml.eventsOf root)) (hxml : root.toXmlWith library = some xml) :
    ∃ read, ofXmlWith library xml = .ok read ∧ read.bare = root.bare.mapNames Xml.localPart := by
  obtain ⟨text, htext, rfl⟩ := Option.map_eq_some_iff.1 hxml
  obtain ⟨hcomplete, htags⟩ := hback text htext
  have hbuilt := Xml.Building.foldlM_bare (library.read (text ++ "\n")).1 {}
  rw [htags, Xml.filter_eventsOf] at hbuilt
  have hbare := hbuilt.trans (Xml.Building.foldlM_eventsOf root.bare [])
  cases hb : Xml.ofEvents (library.read (text ++ "\n")).1 with
  | error f =>
    rw [Xml.ofEvents] at hb
    simp [hb, Except.map] at hbare
  | ok built =>
    have he : built.bare = ⟨[], some (root.bare.mapNames Xml.localPart)⟩ := by
      rw [Xml.ofEvents] at hb
      simpa [hb, Except.map, Xml.Building.add] using hbare
    obtain ⟨read, hread, hr⟩ := Option.map_eq_some_iff.1 (congrArg Xml.Building.root he)
    exact ⟨read, by simp [ofXmlWith, hb, hread, hcomplete], hr⟩

/-- Removing prefixes changes a document exactly if there is one. -/
theorem mapNames_localPart_eq_iff (root : Node) :
    root.bare.mapNames Xml.localPart = root.bare ↔ ∀ name ∈ root.names, ':' ∉ name.toList := by
  simp only [mapNames_bare_eq_iff, Xml.localPart_eq_self]

/-- **A document is rebuilt from its XML, but for prefixes.** If the library reads back what it wrote of a document,
then all nodes come back in order with their attributes, and every kind and every name of an attribute without its
prefix. So the document is the same, apart from texts, exactly if none of its names has a prefix. -/
theorem ofXmlWith_toXmlWith {library : Xml.Library} {root : Node} {xml : String}
    (hback : library.ReadsBack (Xml.eventsOf root)) (hxml : root.toXmlWith library = some xml) :
    ∃ read, ofXmlWith library xml = .ok read ∧ read.bare = root.bare.mapNames Xml.localPart ∧
      (read.bare = root.bare ↔ ∀ name ∈ root.names, ':' ∉ name.toList) := by
  obtain ⟨read, hread, hbare⟩ := bare_ofXmlWith hback hxml
  exact ⟨read, hread, hbare, by rw [hbare, mapNames_localPart_eq_iff]⟩

/-- A class with a comment and two fields. -/
def commented : Node where
  kind := "class"
  attributes := [("name", "a<b>&\"c\""), ("access", "33")]
  children := [
    { kind := "comment", text := some " some text" },
    { kind := "field", attributes := [("name", "x")], children := [.leaf "value" [("type", "none")]] },
    { kind := "field", attributes := [("name", "y")] }]

theorem readsBack_commented : Xml.library.ReadsBack (Xml.eventsOf commented) := by
  rintro _ ⟨⟩
  decide +kernel

theorem ofXmlWith_toXmlWith_commented : Xml.library.ReadsBack (Xml.eventsOf commented) ∧
    commented.toXmlWith Xml.library = some commented.toXml ∧
    ∃ read, ofXmlWith Xml.library commented.toXml = .ok read ∧ read.bare = commented.bare.mapNames Xml.localPart ∧
      (read.bare = commented.bare ↔ ∀ name ∈ commented.names, ':' ∉ name.toList) :=
  ⟨readsBack_commented, rfl, ofXmlWith_toXmlWith readsBack_commented rfl⟩

/-- A class that tells the language of its texts. -/
def inEnglish : Node := .leaf "class" [("xml:lang", "en")]

theorem readsBack_inEnglish : Xml.library.ReadsBack (Xml.eventsOf inEnglish) := by
  rintro _ ⟨⟩
  decide +kernel

/-- The attribute `xml:lang` is written and reported with its prefix, and comes back without it. -/
theorem ofXmlWith_inEnglish : Xml.library.ReadsBack (Xml.eventsOf inEnglish) ∧
    inEnglish.toXmlWith Xml.library = some inEnglish.toXml ∧
    ∃ read, ofXmlWith Xml.library inEnglish.toXml = .ok read ∧ read.bare = .leaf "class" [("lang", "en")] ∧
      read.bare ≠ inEnglish.bare := by
  obtain ⟨read, hread, hbare⟩ := bare_ofXmlWith readsBack_inEnglish (toXmlWith_library inEnglish)
  refine ⟨readsBack_inEnglish, rfl, read, hread, hbare.trans rfl, ?_⟩
  rw [hbare, ne_eq, mapNames_localPart_eq_iff]
  decide

end Node

end ClassDoc
