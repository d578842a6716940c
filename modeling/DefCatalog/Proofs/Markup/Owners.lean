import DefCatalog.Proofs.Markup.Tree
import Mathlib.Data.Set.Image

/-!
# The elements that own the names of a document

Each element of a document extends from its opening tag to its closing tag, unless it consists of one
tag. A `<defName>` element should be filed under the kind of an element that extends beyond it. The
first rule compares the last opening and the last closing tag of a kind only, so it can also file a
name under the kind of an element that consists of one tag and ends before the name: such a tag opens
its kind, and nothing closes it. In strict matching this is the only way in which the rule can go
wrong on a well-formed document, however its elements are nested.
-/

namespace DefCatalog

namespace TagPattern

variable {pattern : TagPattern} {front front' : Text} {starts starts' : Set Nat}

/-- The occurrences in any text that begins with `front` are the given ones and those behind it. -/
def Marks (pattern : TagPattern) (front : Text) (starts : Set Nat) : Prop :=
  ∀ rest start, pattern.OccursAt (front ++ rest) start ↔
    start ∈ starts ∨ ∃ more, start = front.length + more ∧ pattern.OccursAt rest more

theorem marks_of_not_mem (h : '<' ∉ front) : pattern.Marks front ∅ := by
  intro rest start
  rw [Set.mem_empty_iff_false, false_or, occursAt_append_iff h]

theorem marks_of_head {body : Text} {opens : Prop} (hbody : '<' ∉ body)
    (hhead : ∀ rest, pattern.OccursAt ('<' :: body ++ rest) 0 ↔ opens) :
    pattern.Marks ('<' :: body) {start | start = 0 ∧ opens} := by
  intro rest start
  rw [Set.mem_ofPred_eq, occursAt_cons_append_iff hbody, hhead]

theorem Marks.append (h : pattern.Marks front starts) (h' : pattern.Marks front' starts') :
    pattern.Marks (front ++ front') (starts ∪ (front.length + ·) '' starts') := by
  intro rest start
  rw [List.append_assoc, h, List.length_append]
  simp only [h' rest, Set.mem_union, Set.mem_image]
  constructor
  · rintro (hstart | ⟨_, rfl, hmore | ⟨more, rfl, hoccurs⟩⟩)
    · exact Or.inl (Or.inl hstart)
    · exact Or.inl (Or.inr ⟨_, hmore, rfl⟩)
    · exact Or.inr ⟨more, (Nat.add_assoc _ _ _).symm, hoccurs⟩
  · rintro ((hstart | ⟨more, hmore, rfl⟩) | ⟨more, rfl, hoccurs⟩)
    · exact Or.inl hstart
    · exact Or.inr ⟨more, rfl, Or.inl hmore⟩
    · exact Or.inr ⟨_, Nat.add_assoc _ _ _, Or.inr ⟨more, rfl, hoccurs⟩⟩

theorem Marks.occursAt_iff (h : pattern.Marks front starts) {start : Nat} :
    pattern.OccursAt front start ↔ start ∈ starts := by
  have hmarks := h [] start
  simp only [not_occursAt_nil, and_false, exists_false, or_false] at hmarks
  rwa [List.append_nil] at hmarks

end TagPattern

namespace Markup

/-- The name of an element, where its opening tag begins and where its closing tag begins, if it has
one. -/
structure Extent where
  name : Text
  opened : Nat
  closed? : Option Nat
deriving DecidableEq, Repr

namespace Extent

/-- The extent of an element that stands so many characters later. -/
def shift (width : Nat) (extent : Extent) : Extent where
  name := extent.name
  opened := width + extent.opened
  closed? := extent.closed?.map (width + ·)

/-- The positions of a mark of the elements of a name. -/
def starts (mark : Extent → Option Nat) (name : Text) (extents : List Extent) : Set Nat :=
  {start | ∃ extent ∈ extents, extent.name = name ∧ mark extent = some start}

/-- An element always has an opening tag. -/
def opening? (extent : Extent) : Option Nat :=
  some extent.opened

variable {mark : Extent → Option Nat} {name : Text}

theorem starts_nil : starts mark name [] = ∅ := by
  simp [starts]

theorem starts_cons {extent : Extent} {extents : List Extent} :
    starts mark name (extent :: extents) =
      {start | extent.name = name ∧ mark extent = some start} ∪ starts mark name extents := by
  ext start
  simp [starts]

theorem starts_append {extents extents' : List Extent} :
    starts mark name (extents ++ extents') = starts mark name extents ∪ starts mark name extents' := by
  ext start
  simp [starts, or_and_right, exists_or]

theorem starts_map_shift {width : Nat} {extents : List Extent}
    (hmark : ∀ width extent, mark (shift width extent) = (mark extent).map (width + ·)) :
    starts mark name (extents.map (shift width)) = (width + ·) '' starts mark name extents := by
  ext start
  simp only [starts, List.mem_map, Set.mem_ofPred_eq, Set.mem_image]
  constructor
  · rintro ⟨_, ⟨extent, hextent, rfl⟩, hname, hstart⟩
    rw [hmark, Option.map_eq_some_iff] at hstart
    obtain ⟨before, hbefore, rfl⟩ := hstart
    exact ⟨before, ⟨extent, hextent, hname, hbefore⟩, rfl⟩
  · rintro ⟨before, ⟨extent, hextent, hname, hbefore⟩, rfl⟩
    exact ⟨_, ⟨extent, hextent, rfl⟩, hname, by rw [hmark, hbefore]; rfl⟩

theorem opening?_shift (width : Nat) (extent : Extent) :
    (shift width extent).opening? = extent.opening?.map (width + ·) :=
  rfl

theorem closed?_shift (width : Nat) (extent : Extent) :
    (shift width extent).closed? = extent.closed?.map (width + ·) :=
  rfl

end Extent

namespace Content

/-- The extents of all elements, in the order in which the elements begin. -/
def extents : Content → List Extent
  | nothing => []
  | text chunk _ rest => rest.extents.map (.shift chunk.length)
  | element tag content rest =>
    let inner := (tag.render false).length
    let closed := inner + content.render.length
    ⟨tag.name, 0, some closed⟩ ::
      (content.extents.map (.shift inner) ++
        rest.extents.map (.shift (closed + tag.closing.length)))
  | single tag rest =>
    ⟨tag.name, 0, none⟩ :: rest.extents.map (.shift (tag.render true).length)

/-- An element of this name begins before the part of the document and ends behind it. -/
def Encloses (doc : Content) (name : Text) (start stop : Nat) : Prop :=
  ∃ extent ∈ doc.extents, extent.name = name ∧ extent.opened < start ∧
    ∃ closed, extent.closed? = some closed ∧ stop ≤ closed

/-- The last tag of this name that begins before the position is the one tag of an element. -/
def EndsInSingle (doc : Content) (name : Text) (position : Nat) : Prop :=
  ∃ extent ∈ doc.extents, extent.name = name ∧ extent.closed? = none ∧ extent.opened < position ∧
    (∀ opened ∈ Extent.starts Extent.opening? name doc.extents, opened < position → opened ≤ extent.opened) ∧
    ∀ closed ∈ Extent.starts Extent.closed? name doc.extents, closed < position → closed < extent.opened

end Content

section Marks

variable (kind : DefKind) (tag : Tag) (alone : Bool)

theorem opening_marks_render :
    (kind.opening .strict).Marks (tag.render alone) {start | start = 0 ∧ kind.tag = tag.name} :=
  TagPattern.marks_of_head (tag.not_mem_tail_render alone) fun _ ↦ opening_occursAt_render

theorem closing_marks_closing :
    (kind.closing .strict).Marks tag.closing {start | start = 0 ∧ kind.tag = tag.name} :=
  TagPattern.marks_of_head tag.not_mem_tail_closing fun _ ↦ closing_occursAt_closing

theorem closing_marks_render :
    (kind.closing .strict).Marks (tag.render alone) {start | start = 0 ∧ False} :=
  TagPattern.marks_of_head (tag.not_mem_tail_render alone) fun _ ↦
    iff_of_false not_closing_occursAt_render not_false

theorem opening_marks_closing :
    (kind.opening .strict).Marks tag.closing {start | start = 0 ∧ False} :=
  TagPattern.marks_of_head tag.not_mem_tail_closing fun _ ↦
    iff_of_false not_opening_occursAt_closing not_false

end Marks

namespace Content

theorem opening_marks (kind : DefKind) (doc : Content) :
    (kind.opening .strict).Marks doc.render
      (Extent.starts Extent.opening? kind.tag doc.extents) := by
  induction doc with
  | nothing =>
    rw [extents, Extent.starts_nil]
    exact TagPattern.marks_of_not_mem List.not_mem_nil
  | text chunk plain more ih =>
    have hmarks := (TagPattern.marks_of_not_mem plain).append ih
    rwa [Set.empty_union, ← Extent.starts_map_shift Extent.opening?_shift] at hmarks
  | element tag content more ihcontent ihmore =>
    have hmarks := (opening_marks_render kind tag false).append
      (ihcontent.append ((opening_marks_closing kind tag).append ihmore))
    convert hmarks using 1
    · rfl
    · simp [extents, Extent.starts_cons, Extent.starts_append, Extent.opening?,
        Extent.starts_map_shift Extent.opening?_shift, Set.image_union, Set.image_image,
        Nat.add_assoc, eq_comm, and_comm]
  | single tag more ih =>
    have hmarks := (opening_marks_render kind tag true).append ih
    convert hmarks using 1
    · rfl
    · simp [extents, Extent.starts_cons, Extent.opening?,
        Extent.starts_map_shift Extent.opening?_shift, eq_comm, and_comm]

theorem closing_marks (kind : DefKind) (doc : Content) :
    (kind.closing .strict).Marks doc.render
      (Extent.starts Extent.closed? kind.tag doc.extents) := by
  induction doc with
  | nothing =>
    rw [extents, Extent.starts_nil]
    exact TagPattern.marks_of_not_mem List.not_mem_nil
  | text chunk plain more ih =>
    have hmarks := (TagPattern.marks_of_not_mem plain).append ih
    rwa [Set.empty_union, ← Extent.starts_map_shift Extent.closed?_shift] at hmarks
  | element tag content more ihcontent ihmore =>
    have hmarks := (closing_marks_render kind tag false).append
      (ihcontent.append ((closing_marks_closing kind tag).append ihmore))
    have hclosing : ∀ width : Nat, (width + ·) '' {start | start = 0 ∧ kind.tag = tag.name} =
        {start | tag.name = kind.tag ∧ width = start} := by
      intro width
      ext start
      simp [eq_comm, and_comm]
    convert hmarks using 1
    · rfl
    · simp [extents, Extent.starts_cons, Extent.starts_append,
        Extent.starts_map_shift Extent.closed?_shift, Set.image_union, Set.image_image,
        Nat.add_assoc, Set.union_left_comm, ← hclosing]
  | single tag more ih =>
    have hmarks := (closing_marks_render kind tag true).append ih
    convert hmarks using 1
    · rfl
    · simp [extents, Extent.starts_cons, Extent.starts_map_shift Extent.closed?_shift]

theorem opened_lt_closed {doc : Content} {extent : Extent} {closed : Nat}
    (h : extent ∈ doc.extents) (hclosed : extent.closed? = some closed) :
    extent.opened < closed := by
  have hshift : ∀ {width : Nat} {extents : List Extent},
      (∀ e ∈ extents, ∀ c, e.closed? = some c → e.opened < c) →
        ∀ e ∈ extents.map (Extent.shift width), ∀ c, e.closed? = some c → e.opened < c := by
    intro width extents hall _ hshifted c hc
    obtain ⟨e, he, rfl⟩ := List.mem_map.mp hshifted
    obtain ⟨before, hbefore, rfl⟩ := Option.map_eq_some_iff.mp hc
    exact Nat.add_lt_add_left (hall e he before hbefore) width
  suffices hall : ∀ e ∈ doc.extents, ∀ c, e.closed? = some c → e.opened < c from
    hall extent h closed hclosed
  clear h hclosed
  induction doc with
  | nothing => simp [extents]
  | text chunk plain more ih => exact hshift ih
  | element tag content more ihcontent ihmore =>
    simp only [extents, List.forall_mem_cons, List.forall_mem_append]
    refine ⟨?_, hshift ihcontent, hshift ihmore⟩
    rintro c ⟨⟩
    simp only [Tag.render, List.length_cons]
    omega
  | single tag more ih =>
    simp only [extents, List.forall_mem_cons]
    exact ⟨by simp, hshift ih⟩

end Content

/-! ## The owner of a name -/

/-- No closing tag of a kind begins inside a `<defName>` element. -/
theorem le_of_closing_occursAt {kind : DefKind} (hkind : kind ∈ DefKind.all) {text value rest : Text}
    {position closed : Nat} (hname : taggedName? (text.drop position) = some (value, rest))
    (hclosed : (kind.closing .strict).OccursAt text closed) (hle : position ≤ closed) :
    position + (nameOpening.length + value.length + nameClosing.length) ≤ closed := by
  obtain ⟨_, hplain, happend⟩ := taggedName?_eq_some_iff.mp hname
  obtain ⟨offset, rfl⟩ := Nat.exists_eq_add_of_le hle
  -- the element is a document of its own, which has no closing tag of a kind
  let element : Content := .element plainName (.text value hplain .nothing) .nothing
  have hrender : text.drop position = element.render ++ rest := by
    rw [← happend]
    simp [element, Content.render, Tag.render, Tag.closing, Tag.inside, Tag.ending, plainName,
      nameOpening, nameClosing]
  rw [← TagPattern.occursAt_drop_iff, hrender, element.closing_marks kind] at hclosed
  rcases hclosed with ⟨extent, hextent, htag, -⟩ | ⟨more, rfl, -⟩
  · have hnameTag : ∀ kind ∈ DefKind.all, kind.tag ≠ nameTag := by decide
    have hextents : extent.name = nameTag := by
      simp only [element, Content.extents, List.map_nil, List.append_nil, List.mem_singleton]
        at hextent
      rw [hextent]
      rfl
    exact absurd (htag.symm.trans hextents) (hnameTag kind hkind)
  · simp [element, Content.render, Tag.render, Tag.closing, Tag.inside, Tag.ending, plainName,
      nameOpening, nameClosing]
    omega

/-- An open kind has an element around the name, unless its last tag before the name is the one tag
of an element. -/
theorem owner_of_isOpenAfter {doc : Content} {kind : DefKind} (hkind : kind ∈ DefKind.all)
    {position : Nat} {value rest : Text}
    (hname : taggedName? (doc.render.drop position) = some (value, rest))
    (hopen : kind.IsOpenAfter .strict (doc.render.take position)) :
    doc.Encloses kind.tag position
        (position + (nameOpening.length + value.length + nameClosing.length)) ∨
      doc.EndsInSingle kind.tag position := by
  have hmark : doc.render[position]? = some '<' := by
    have hzero := (head_of_taggedName? hname).1
    rwa [List.getElem?_drop] at hzero
  obtain ⟨first, hfirst, hafter⟩ := DefKind.isOpenAfter_iff.mp hopen
  obtain ⟨opened, hopened⟩ := TagPattern.exists_lastStart? hfirst
  obtain ⟨hoccurs, hgreatest⟩ := TagPattern.lastStart?_eq_some_iff.mp hopened
  have hbefore : ∀ closed < position, (kind.closing .strict).OccursAt doc.render closed →
      closed < opened := by
    intro closed hlt hclosing
    have htake := (TagPattern.occursAt_take_iff_of_mark hmark).mpr ⟨hlt, hclosing⟩
    exact Nat.lt_of_lt_of_le (hafter closed htake) (hgreatest hfirst)
  obtain ⟨hlt, hopening⟩ := (TagPattern.occursAt_take_iff_of_mark hmark).mp hoccurs
  obtain ⟨extent, hextent, htag, hstart⟩ := (doc.opening_marks kind).occursAt_iff.mp hopening
  obtain rfl : extent.opened = opened := Option.some.inj hstart
  cases hclosed : extent.closed? with
  | none =>
    refine Or.inr ⟨extent, hextent, htag, hclosed, hlt, ?_, ?_⟩
    · intro start hopens hbelow
      exact hgreatest ((TagPattern.occursAt_take_iff_of_mark hmark).mpr
        ⟨hbelow, (doc.opening_marks kind).occursAt_iff.mpr hopens⟩)
    · intro closed hcloses hbelow
      exact hbefore closed hbelow ((doc.closing_marks kind).occursAt_iff.mpr hcloses)
  | some closed =>
    have hclosing : (kind.closing .strict).OccursAt doc.render closed :=
      (doc.closing_marks kind).occursAt_iff.mpr ⟨extent, hextent, htag, hclosed⟩
    have hbehind := Content.opened_lt_closed hextent hclosed
    have hle : position ≤ closed := by
      by_contra hbelow
      have hlater := hbefore closed (Nat.not_le.mp hbelow) hclosing
      omega
    exact Or.inl ⟨extent, hextent, htag, hlt, closed, hclosed,
      le_of_closing_occursAt hkind hname hclosing hle⟩

/-- A `<defName>` element of a text, with the kind that it is filed under. -/
structure Filing where
  kind : DefKind
  position : Nat
  value : Text

namespace Filing

/-- The definition that the element is filed as. -/
def definition (filing : Filing) : Definition :=
  ⟨filing.kind.key, filing.value⟩

/-- Where the element ends. -/
def stop (filing : Filing) : Nat :=
  filing.position + (nameOpening.length + filing.value.length + nameClosing.length)

end Filing

/-- The definitions that the first rule finds in the document are those of some of its `<defName>`
elements, in their order, and each of them is filed under a kind that fits. -/
def Content.IsFiledBy (doc : Content) (fits : Filing → Prop) : Prop :=
  ∃ filings : List Filing,
    taggedDefinitions .strict doc.render = filings.map Filing.definition ∧
      (filings.map fun filing ↦ (filing.position, filing.value)).Sublist (taggedNames doc.render) ∧
        ∀ filing ∈ filings, filing.kind ∈ DefKind.all ∧ fits filing

theorem sublist_map_filterMap {α β : Type} {use : α → Option β} {back : β → α}
    (h : ∀ a b, use a = some b → back b = a) (l : List α) :
    ((l.filterMap use).map back).Sublist l := by
  induction l with
  | nil => exact List.Sublist.slnil
  | cons a l ih =>
    cases huse : use a with
    | none => rw [List.filterMap_cons_none huse]; exact ih.cons a
    | some b =>
      rw [List.filterMap_cons_some huse, List.map_cons, h a b huse]
      exact ih.cons_cons a

/-- Each name is filed under a kind with an element around it, unless the last tag of the kind before
the name is the one tag of an element. -/
theorem isFiledBy_enclosing_or_single (doc : Content) :
    doc.IsFiledBy fun filing ↦
      doc.Encloses filing.kind.tag filing.position filing.stop ∨
        doc.EndsInSingle filing.kind.tag filing.position := by
  let file? : Nat × Text → Option Filing := fun found ↦
    (DefKind.all.find? fun kind ↦ kind.IsOpenAfter .strict (doc.render.take found.1)).map
      fun kind ↦ ⟨kind, found.1, found.2⟩
  refine ⟨(taggedNames doc.render).filterMap file?, ?_, ?_, ?_⟩
  · rw [taggedDefinitions_eq_filterMap_taggedNames, List.map_filterMap]
    apply List.filterMap_congr
    intro found _
    simp only [file?, fileUnder?, Option.map_map]
    rfl
  · apply sublist_map_filterMap
    intro found filing hfiling
    obtain ⟨kind, _, rfl⟩ := Option.map_eq_some_iff.mp hfiling
    rfl
  · intro filing hfiling
    obtain ⟨⟨position, value⟩, hfound, hfile⟩ := List.mem_filterMap.mp hfiling
    obtain ⟨kind, hfind, rfl⟩ := Option.map_eq_some_iff.mp hfile
    have hkind := List.mem_of_find?_eq_some hfind
    rw [taggedNames, taggedNamesFrom_eq_filterMap, List.mem_filterMap] at hfound
    obtain ⟨offset, _, hoffset⟩ := hfound
    obtain ⟨⟨inner, rest⟩, hname, hpair⟩ := Option.map_eq_some_iff.mp hoffset
    obtain ⟨rfl, rfl⟩ := Prod.mk.inj hpair
    rw [Nat.zero_add] at hfind ⊢
    exact ⟨hkind, owner_of_isOpenAfter hkind hname (by simpa using List.find?_some hfind)⟩

theorem steel_plain : '<' ∉ "Steel".toList := by
  decide

/-- `<HediffDef Name="Base"/><ThingDef Name="Base" ParentName="Root"><defName>Steel</defName></ThingDef>` -/
def abstractFirst : Content :=
  .single abstractHediff
    (.element parentLast
      (.element plainName (.text "Steel".toList steel_plain .nothing) .nothing)
      .nothing)

/-- An element that consists of one tag is taken for the owner of a later name. -/
theorem not_isFiledBy_enclosing :
    ¬∀ doc : Content, doc.IsFiledBy fun filing ↦
      doc.Encloses filing.kind.tag filing.position filing.stop := by
  intro hall
  obtain ⟨filings, hdefinitions, hnames, hfits⟩ := hall abstractFirst
  have hfound : taggedDefinitions .strict abstractFirst.render =
      [⟨"hediff".toList, "Steel".toList⟩] := by
    rw [taggedDefinitions_eq_scanForward]
    decide +kernel
  obtain ⟨filing, rfl⟩ : ∃ filing, filings = [filing] := by
    rw [← List.length_eq_one_iff, ← List.length_map (f := Filing.definition), ← hdefinitions, hfound]
    rfl
  obtain ⟨hkind, hencloses⟩ := hfits filing List.mem_cons_self
  have hkey : filing.kind.key = "hediff".toList := by
    rw [hfound] at hdefinitions
    exact congrArg Definition.kind (List.cons.inj hdefinitions).1.symm
  have htag : ∀ kind ∈ DefKind.all, kind.key = "hediff".toList → kind.tag = "HediffDef".toList := by
    decide
  rw [htag filing.kind hkind hkey] at hencloses
  -- the only element of this name has no closing tag
  obtain ⟨extent, hextent, hname, _, closed, hclosed, _⟩ := hencloses
  have hopen : ∀ extent ∈ abstractFirst.extents, extent.name = "HediffDef".toList →
      extent.closed? = none := by
    decide
  rw [hopen extent hextent hname] at hclosed
  cases hclosed

end Markup

end DefCatalog
