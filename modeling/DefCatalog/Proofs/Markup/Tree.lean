import DefCatalog.Proofs.Markup.ForwardScan
import DefCatalog.Proofs.Markup.NamedTags

/-!
# Strict extraction follows the tree

In strict matching the two rules, which look at characters only, find what the tree of a well-formed
document says: the first rule files a `<defName>` element under the first recognized kind among its
ancestors, and the second rule lists the name attributes of the elements of each kind.
-/

namespace DefCatalog.Markup

namespace Tag

/-- Whether the tag opens an element whose text is a name. -/
def marksName (tag : Tag) : Bool :=
  tag.name == nameTag && tag.inside.isEmpty

/-- The value of the name attribute, if it is not empty. -/
def nameValue? (tag : Tag) : Option Text :=
  ((tag.attributes.find? (·.key == nameKey)).map Attribute.value).filter (!·.isEmpty)

/-- Whether some kind has this tag. -/
def isRecognized (tag : Tag) : Bool :=
  DefKind.all.any (·.tag == tag.name)

end Tag

namespace Content

/-- The definitions by `<defName>` elements in document order, given the names of the elements
around. -/
def tagged (ancestors : List Text) : Content → List Definition
  | nothing => []
  | text _ _ rest => rest.tagged ancestors
  | element tag content rest =>
    let value? := if tag.marksName then content.onlyText?.filter (!·.isEmpty) else none
    (value?.bind (fileUnder? fun kind ↦ ancestors.contains kind.tag)).toList ++
      (content.tagged (tag.name :: ancestors) ++ rest.tagged ancestors)
  | single _ rest => rest.tagged ancestors

/-- The definitions by name attributes, kind by kind. -/
def named (doc : Content) : List Definition :=
  DefKind.all.flatMap fun kind ↦
    (doc.tags.filter (·.name == kind.tag)).filterMap fun tag ↦
      tag.nameValue?.map fun name ↦ ⟨kind.key, name⟩

/-- Whether every element has a closing tag. -/
def isPaired : Content → Bool
  | nothing => true
  | text _ _ rest => rest.isPaired
  | element _ content rest => content.isPaired && rest.isPaired
  | single _ _ => false

/-- Whether an element with a recognized tag stands inside an element with the same tag, given the
names of the elements around. -/
def nestsInItself (ancestors : List Text) : Content → Bool
  | nothing => false
  | text _ _ rest => rest.nestsInItself ancestors
  | element tag content rest =>
    (tag.isRecognized && ancestors.contains tag.name) ||
      content.nestsInItself (tag.name :: ancestors) || rest.nestsInItself ancestors
  | single _ rest => rest.nestsInItself ancestors

end Content

/-- Whether a text ends in a blank and the beginning of a name attribute. -/
def EndsInBlankName (text : Text) : Prop :=
  ∃ front blank, Text.isBlank blank = true ∧ front ++ blank :: (nameKey ++ ['=']) = text

theorem endsInName_strict_iff {text : Text} :
    endsInName .strict false text = true ↔ EndsInBlankName text := by
  rw [endsInName_iff]
  constructor
  · rintro ⟨front, hfront, hloose | hblank⟩
    · cases hloose
    · rcases List.eq_nil_or_concat front with rfl | ⟨init, blank, rfl⟩
      · cases hblank
      · exact ⟨init, blank, by simpa using hblank, by simpa using hfront⟩
  · rintro ⟨front, blank, hblank, hfront⟩
    exact ⟨front ++ [blank], by simpa using hfront, Or.inr (by simpa using hblank)⟩

instance (text : Text) : Decidable (EndsInBlankName text) :=
  decidable_of_iff _ endsInName_strict_iff

/-- With distinct keys there is at most one name, unless a value makes the search find another. -/
theorem getLast?_nameCandidates {attributes : List Attribute} {rest : Text}
    (hkeys : (attributes.map Attribute.key).Nodup)
    (h : ∀ a ∈ attributes, ¬EndsInBlankName a.value) :
    ((nameCandidates .strict attributes rest).map Prod.fst).getLast? =
      ((attributes.find? (·.key == nameKey)).map Attribute.value).filter (!·.isEmpty) := by
  induction attributes with
  | nil => rfl
  | cons a more ih =>
    rw [List.map_cons, List.nodup_cons] at hkeys
    have hvalue : endsInName .strict false a.value = false := by
      rw [Bool.eq_false_iff, ne_eq, endsInName_strict_iff]
      exact h a List.mem_cons_self
    have hmore := ih hkeys.2 fun b hb ↦ h b (List.mem_cons_of_mem _ hb)
    rw [nameCandidates, List.map_append, List.getLast?_append, hmore]
    by_cases hkey : a.key = nameKey
    · have hnone : more.find? (·.key == nameKey) = none := by
        rw [List.find?_eq_none]
        intro b hb hname
        rw [hkey, ← beq_iff_eq.mp hname] at hkeys
        exact hkeys.1 (List.mem_map_of_mem hb)
      rw [hnone, List.find?_cons_of_pos (by simpa using hkey), Option.map_some,
        Attribute.candidates, hvalue]
      cases hempty : a.value with
      | nil => simp [Option.filter_some]
      | cons c value => simp [Attribute.isNamed, hkey, Option.filter_some]
    · simp [Attribute.candidates, Attribute.isNamed, hkey, hvalue]

theorem tagNames_strict_render {tag : Tag} {alone : Bool} {kind : DefKind} {rest : Text}
    (h : ∀ a ∈ tag.attributes, ¬EndsInBlankName a.value) :
    tagNames .strict kind (tag.render alone ++ rest) =
      ([tag].filter (·.name == kind.tag)).filterMap Tag.nameValue? ++
        tagNames .strict kind rest := by
  have hstray : tag.strayName? .strict alone rest = none := by
    have hruns : runsAway .strict tag.attributes = false := by
      rw [Bool.eq_false_iff, runsAway, ne_eq, Option.any_eq_true]
      rintro ⟨a, hlast, ha⟩
      exact h a (List.mem_of_getLast? hlast) (endsInName_strict_iff.mp ha)
    rw [Tag.strayName?, hruns]
    rfl
  have hlast : (tag.names .strict).getLast? = tag.nameValue? :=
    getLast?_nameCandidates tag.nodup_keys h
  rw [Tag.tagNames_render, hstray, hlast, Tag.isOf, List.filter_singleton]
  cases tag.name == kind.tag with
  | false => rfl
  | true => cases hname : tag.nameValue? <;> simp [hname]

theorem tagNames_render_content {doc : Content} (kind : DefKind) (rest : Text)
    (h : ∀ tag ∈ doc.tags, ∀ a ∈ tag.attributes, ¬EndsInBlankName a.value) :
    tagNames .strict kind (doc.render ++ rest) =
      (doc.tags.filter (·.name == kind.tag)).filterMap Tag.nameValue? ++
        tagNames .strict kind rest := by
  induction doc generalizing rest with
  | nothing => rfl
  | text chunk plain more ih =>
    rw [Content.render, List.append_assoc, tagNames_append plain, ih _ h, Content.tags]
  | element tag content more ihcontent ihmore =>
    simp only [Content.tags, List.forall_mem_cons, List.forall_mem_append] at h
    have htags : (Content.element tag content more).tags = [tag] ++ (content.tags ++ more.tags) := rfl
    let names (tags : List Tag) := (tags.filter (·.name == kind.tag)).filterMap Tag.nameValue?
    calc
      tagNames .strict kind ((Content.element tag content more).render ++ rest) =
          tagNames .strict kind
            (tag.render false ++ (content.render ++ (tag.closing ++ (more.render ++ rest)))) := by
        rw [Content.render, List.append_assoc, List.append_assoc, List.append_assoc]
      _ = names [tag] ++ (names content.tags ++ tagNames .strict kind (more.render ++ rest)) := by
        rw [tagNames_strict_render h.1, ihcontent _ h.2.1, tagNames_closing]
      _ = names [tag] ++ (names content.tags ++ (names more.tags ++ tagNames .strict kind rest)) := by
        rw [ihmore _ h.2.2]
      _ = names (Content.element tag content more).tags ++ tagNames .strict kind rest := by
        simp only [names, htags, List.filter_append, List.filterMap_append, List.append_assoc]
  | single tag more ih =>
    simp only [Content.tags, List.forall_mem_cons] at h
    have htags : (Content.single tag more).tags = [tag] ++ more.tags := rfl
    let names (tags : List Tag) := (tags.filter (·.name == kind.tag)).filterMap Tag.nameValue?
    calc
      tagNames .strict kind ((Content.single tag more).render ++ rest) =
          names [tag] ++ tagNames .strict kind (more.render ++ rest) := by
        rw [Content.render, List.append_assoc, tagNames_strict_render h.1]
      _ = names [tag] ++ (names more.tags ++ tagNames .strict kind rest) := by rw [ih _ h.2]
      _ = names (Content.single tag more).tags ++ tagNames .strict kind rest := by
        simp only [names, htags, List.filter_append, List.filterMap_append, List.append_assoc]

/-! ## The first rule -/

section Marks

variable {kind : DefKind} {tag : Tag} {alone : Bool} {rest : Text}

/-- A bounded tag of a kind stands where a name is spelled in the same way if the name is that of the
kind. -/
theorem bounded_occursAt_iff {pattern : TagPattern} {front after : Text} {d : Char}
    (hbounded : pattern.bounded = true) (htail : pattern.tail = front ++ kind.tag)
    (hd : TagPattern.isTagEnd d = true) :
    pattern.OccursAt ('<' :: (front ++ (tag.name ++ d :: after))) 0 ↔ kind.tag = tag.name := by
  have hkind : ∀ c ∈ kind.tag, isNameChar c = true := fun c ↦ isNameChar_of_mem_tag
  have hname : ∀ c ∈ tag.name, isNameChar c = true := List.all_eq_true.mp tag.name_plain
  rw [TagPattern.occursAt_zero_iff hbounded, TagPattern.lead, htail]
  simp only [List.cons_append, List.append_assoc, List.cons_inj_right, List.append_right_inj]
  constructor
  · rintro ⟨c, more, hlead, hc⟩
    exact ((Tag.append_delimiter_eq_iff hkind hname hc hd).mp hlead).1
  · intro heq
    exact ⟨d, after, by rw [heq], hd⟩

theorem opening_occursAt_render :
    (kind.opening .strict).OccursAt (tag.render alone ++ rest) 0 ↔ kind.tag = tag.name := by
  obtain ⟨d, after, htext, hd, _⟩ := tag.exists_delimiter alone rest
  have hrender : tag.render alone ++ rest = '<' :: ([] ++ (tag.name ++ d :: after)) := by
    simp [Tag.render, ← htext]
  rw [hrender]
  exact bounded_occursAt_iff rfl rfl hd

theorem closing_occursAt_closing :
    (kind.closing .strict).OccursAt (tag.closing ++ rest) 0 ↔ kind.tag = tag.name := by
  have hclosing : tag.closing ++ rest = '<' :: (['/'] ++ (tag.name ++ '>' :: rest)) := by
    simp [Tag.closing]
  rw [hclosing]
  exact bounded_occursAt_iff rfl rfl rfl

theorem not_closing_occursAt_render {matching : Matching} :
    ¬(kind.closing matching).OccursAt (tag.render alone ++ rest) 0 := by
  rintro ⟨⟨after, hlead⟩, _⟩
  have htail : ∃ more, (kind.closing matching).tail = '/' :: more := by
    cases matching <;> exact ⟨_, rfl⟩
  obtain ⟨more, hmore⟩ := htail
  obtain ⟨c, name, hname⟩ := List.exists_cons_of_ne_nil tag.name_ne_nil
  have hslash : '/' ∉ tag.name := tag.not_mem_name rfl
  rw [List.drop_zero, TagPattern.lead, hmore, Tag.render, hname] at hlead
  simp only [List.cons_append, List.cons.injEq] at hlead
  rw [hname, ← hlead.2.1] at hslash
  exact hslash List.mem_cons_self

theorem not_opening_occursAt_closing {matching : Matching} :
    ¬(kind.opening matching).OccursAt (tag.closing ++ rest) 0 := by
  rintro ⟨⟨after, hlead⟩, _⟩
  have htail : (kind.opening matching).tail = kind.tag := by
    cases matching <;> rfl
  obtain ⟨c, name, hname⟩ := List.exists_cons_of_ne_nil kind.tag_ne_nil
  have hslash : '/' ∉ kind.tag := kind.not_mem_tag (by decide)
  rw [List.drop_zero, TagPattern.lead, htail, Tag.closing, hname] at hlead
  simp only [List.cons_append, List.cons.injEq] at hlead
  rw [hname, hlead.2.1] at hslash
  exact hslash List.mem_cons_self

end Marks

theorem isOpenPast_render (isOpen : DefKind → Bool) (tag : Tag) (alone : Bool) (rest : Text) :
    DefKind.isOpenPast .strict isOpen (tag.render alone ++ rest) =
      fun kind ↦ kind.tag == tag.name || isOpen kind := by
  funext kind
  rw [DefKind.isOpenPast, if_neg not_closing_occursAt_render]
  simp only [opening_occursAt_render]
  by_cases hname : kind.tag = tag.name <;> simp [hname]

theorem isOpenPast_closing (isOpen : DefKind → Bool) (tag : Tag) (rest : Text) :
    DefKind.isOpenPast .strict isOpen (tag.closing ++ rest) =
      fun kind ↦ kind.tag != tag.name && isOpen kind := by
  funext kind
  rw [DefKind.isOpenPast, if_neg not_opening_occursAt_closing]
  simp only [closing_occursAt_closing]
  by_cases hname : kind.tag = tag.name <;> simp [hname]

/-- What stands before the first `<` of a rendered content: either the content is text alone, or an
opening tag begins there. -/
theorem Content.render_eq (content : Content) :
    (∃ value, content.onlyText? = some value ∧ content.render = value ∧ '<' ∉ value) ∨
      ∃ value c rest, content.onlyText? = none ∧ content.render = value ++ '<' :: c :: rest ∧
        '<' ∉ value ∧ c ≠ '/' := by
  have hhead : ∀ (tag : Tag) alone rest, ∃ c after,
      tag.render alone ++ rest = '<' :: c :: after ∧ c ≠ '/' := by
    intro tag alone rest
    obtain ⟨c, name, hname⟩ := List.exists_cons_of_ne_nil tag.name_ne_nil
    have hslash : '/' ∉ tag.name := tag.not_mem_name rfl
    refine ⟨c, _, by rw [Tag.render, hname]; rfl, ?_⟩
    rintro rfl
    exact hslash (by simp [hname])
  induction content with
  | nothing => exact Or.inl ⟨[], rfl, rfl, List.not_mem_nil⟩
  | text chunk plain more ih =>
    rcases ih with ⟨value, honly, hrender, hplain⟩ | ⟨value, c, rest, honly, hrender, hplain, hc⟩
    · refine Or.inl ⟨chunk ++ value, ?_, ?_, by simp [plain, hplain]⟩
      · rw [onlyText?, honly, Option.map_some]
      · rw [render, hrender]
    · refine Or.inr ⟨chunk ++ value, c, rest, ?_, ?_, by simp [plain, hplain], hc⟩
      · rw [onlyText?, honly, Option.map_none]
      · rw [render, hrender, List.append_assoc]
  | element tag content more =>
    obtain ⟨c, after, hrender, hc⟩ := hhead tag false
      (content.render ++ (tag.closing ++ more.render))
    exact Or.inr ⟨[], c, after, rfl, hrender, List.not_mem_nil, hc⟩
  | single tag more =>
    obtain ⟨c, after, hrender, hc⟩ := hhead tag true more.render
    exact Or.inr ⟨[], c, after, rfl, hrender, List.not_mem_nil, hc⟩

theorem Content.not_mem_of_onlyText? (content : Content) {value : Text}
    (h : content.onlyText? = some value) : '<' ∉ value := by
  rcases content.render_eq with ⟨only, honly, _, hplain⟩ | ⟨only, c, more, honly, _⟩
  · rw [h] at honly
    cases honly
    exact hplain
  · rw [h] at honly
    cases honly

theorem marksName_iff {tag : Tag} : tag.marksName = true ↔ nameTag = tag.name ++ tag.inside := by
  unfold Tag.marksName
  rw [Bool.and_eq_true, beq_iff_eq, List.isEmpty_iff]
  constructor
  · rintro ⟨hname, hinside⟩
    rw [hname, hinside, List.append_nil]
  · intro h
    obtain ⟨d, after, htext, hd, _⟩ := tag.exists_delimiter false []
    cases hinside : tag.inside with
    | nil => exact ⟨by rw [h, hinside, List.append_nil], rfl⟩
    | cons e more =>
      -- what follows the name is no letter, so it is not part of the name tag
      rw [hinside, List.cons_append, List.cons.injEq] at htext
      have hplain : nameTag.all (TagPattern.isTagEnd · == false) = true := by decide
      rw [← htext.1, beq_iff_eq.mp (List.all_eq_true.mp hplain e (by simp [h, hinside]))] at hd
      cases hd

theorem nameOpening_append_eq_iff {tag : Tag} {text text' : Text} :
    nameOpening ++ text = tag.render false ++ text' ↔ tag.marksName = true ∧ text = text' := by
  have hopening : nameOpening ++ text = '<' :: (nameTag ++ '>' :: text) := by
    simp [nameOpening]
  have hrender : tag.render false ++ text' = '<' :: (tag.name ++ tag.inside ++ '>' :: text') := by
    simp [Tag.render, Tag.ending]
  have hnameTag : '>' ∉ nameTag := by decide
  have hinside : '>' ∉ tag.name ++ tag.inside := by
    simp [tag.not_mem_name (c := '>') rfl, tag.not_mem_inside (c := '>') (Or.inr rfl)]
  calc
    nameOpening ++ text = tag.render false ++ text' ↔
        nameTag ++ '>' :: text = tag.name ++ tag.inside ++ '>' :: text' := by
      rw [hopening, hrender, List.cons_inj_right]
    _ ↔ nameTag = tag.name ++ tag.inside ∧ text = text' :=
      Text.append_cons_eq_iff hnameTag hinside
    _ ↔ tag.marksName = true ∧ text = text' := by rw [marksName_iff]

/-- The text before the first closing name tag behind the beginning of an element is that of the
element, if it contains nothing but text. -/
theorem append_nameClosing_eq_iff {content : Content} {value after rest : Text}
    (hvalue : '<' ∉ value) :
    value ++ (nameClosing ++ after) = content.render ++ (nameClosing ++ rest) ↔
      content.onlyText? = some value ∧ after = rest := by
  rcases content.render_eq with ⟨only, honly, hrender, hplain⟩ |
    ⟨only, c, more, honly, hrender, hplain, hc⟩
  · rw [honly, hrender]
    constructor
    · intro heq
      obtain ⟨rfl, hafter⟩ := (Text.append_cons_eq_iff hvalue hplain).mp heq
      exact ⟨rfl, List.append_cancel_left hafter⟩
    · rintro ⟨honly', rfl⟩
      rw [Option.some.inj honly']
  · rw [honly, hrender]
    constructor
    · intro heq
      rw [List.append_assoc, List.cons_append, List.cons_append] at heq
      have hmark := ((Text.append_cons_eq_iff hvalue hplain).mp heq).2
      exact absurd (List.cons.inj hmark).1.symm hc
    · rintro ⟨honly', _⟩
      cases honly'

/-- The text of an element is taken for a name if the element is a bare `<defName>` that contains
nothing but text. -/
theorem taggedName?_render {tag : Tag} {content : Content} {rest : Text} :
    taggedName? (tag.render false ++ (content.render ++ (tag.closing ++ rest))) =
      (if tag.marksName then content.onlyText?.filter (!·.isEmpty) else none).map
        fun value ↦ (value, rest) := by
  by_cases hmarks : tag.marksName = true
  · have hclosing : tag.closing = nameClosing := by
      unfold Tag.marksName at hmarks
      rw [Tag.closing, beq_iff_eq.mp (Bool.and_eq_true_iff.mp hmarks).1, nameClosing]
    rw [if_pos hmarks, hclosing]
    ext ⟨value, after⟩
    rw [taggedName?_eq_some_iff, nameOpening_append_eq_iff, Option.map_eq_some_iff]
    constructor
    · rintro ⟨hvalue, hplain, _, heq⟩
      obtain ⟨honly, rfl⟩ := (append_nameClosing_eq_iff hplain).mp heq
      exact ⟨value, Option.filter_eq_some_iff.mpr ⟨honly, by simpa using hvalue⟩, rfl⟩
    · rintro ⟨only, hfilter, hpair⟩
      obtain ⟨rfl, rfl⟩ := Prod.mk.inj hpair
      obtain ⟨honly, hvalue⟩ := Option.filter_eq_some_iff.mp hfilter
      have hplain := content.not_mem_of_onlyText? honly
      exact ⟨by simpa using hvalue, hplain, hmarks, (append_nameClosing_eq_iff hplain).mpr ⟨honly, rfl⟩⟩
  · rw [if_neg hmarks, Option.map_none, Option.eq_none_iff_forall_ne_some]
    rintro ⟨value, after⟩ hfound
    rw [taggedName?_eq_some_iff, nameOpening_append_eq_iff] at hfound
    exact hmarks hfound.2.2.1

/-- What the scan does at the tag of an element. -/
theorem scanForward_opening {isOpen : DefKind → Bool} {tag : Tag} {alone : Bool} {rest : Text} :
    scanForward .strict isOpen (tag.render alone ++ rest) =
      (headDefinition? isOpen (tag.render alone ++ rest)).toList ++
        scanForward .strict (fun kind ↦ kind.tag == tag.name || isOpen kind) rest := by
  have hpast := isOpenPast_render isOpen tag alone rest
  rw [tag.render_append] at hpast ⊢
  rw [scanForward, hpast, scanForward_append (tag.not_mem_tail_render alone)]

/-- What the scan does at a closing tag. -/
theorem scanForward_closing {isOpen : DefKind → Bool} {tag : Tag} {rest : Text} :
    scanForward .strict isOpen (tag.closing ++ rest) =
      scanForward .strict (fun kind ↦ kind.tag != tag.name && isOpen kind) rest := by
  have hnone : taggedName? (tag.closing ++ rest) = none := by
    rw [Option.eq_none_iff_forall_ne_some]
    rintro ⟨value, after⟩ hname
    have hmark := (head_of_taggedName? hname).2
    rw [tag.closing_append] at hmark
    cases hmark
  have hpast := isOpenPast_closing isOpen tag rest
  rw [tag.closing_append] at hnone hpast ⊢
  rw [scanForward, hpast, scanForward_append tag.not_mem_tail_closing, headDefinition?, hnone]
  rfl

/-- Along a tree, the kinds that the scan has open are those of the elements around. -/
theorem scanForward_render {doc : Content} {ancestors : List Text} {isOpen : DefKind → Bool}
    (rest : Text) (hpaired : doc.isPaired = true) (hnested : doc.nestsInItself ancestors = false)
    (hopen : ∀ kind ∈ DefKind.all, isOpen kind = ancestors.contains kind.tag) :
    scanForward .strict isOpen (doc.render ++ rest) =
      doc.tagged ancestors ++ scanForward .strict isOpen rest := by
  induction doc generalizing ancestors isOpen rest with
  | nothing => rfl
  | text chunk plain more ih =>
    rw [Content.render, List.append_assoc, scanForward_append plain, ih rest hpaired hnested hopen,
      Content.tagged]
  | element tag content more ihcontent ihmore =>
    rw [Content.isPaired, Bool.and_eq_true] at hpaired
    rw [Content.nestsInItself, Bool.or_eq_false_iff, Bool.or_eq_false_iff] at hnested
    obtain ⟨⟨htag, hcontent⟩, hmore⟩ := hnested
    have hinside : ∀ kind ∈ DefKind.all, (kind.tag == tag.name || isOpen kind) =
        (tag.name :: ancestors).contains kind.tag := by
      intro kind hkind
      rw [hopen kind hkind, List.contains_cons]
    -- a recognized tag is not open around its own element, so its end restores what was open
    have hrestored : ∀ kind ∈ DefKind.all,
        (kind.tag != tag.name && (kind.tag == tag.name || isOpen kind)) = isOpen kind := by
      intro kind hkind
      by_cases hname : kind.tag = tag.name
      · have hrecognized : tag.isRecognized = true :=
          List.any_eq_true.mpr ⟨kind, hkind, by simpa using hname⟩
        rw [hrecognized, Bool.true_and] at htag
        rw [hopen kind hkind, hname, htag, bne_self_eq_false, Bool.false_and]
      · rw [bne_iff_ne.mpr hname, beq_eq_false_iff_ne.mpr hname, Bool.true_and, Bool.false_or]
    have hfile : fileUnder? isOpen = fileUnder? fun kind ↦ ancestors.contains kind.tag := by
      funext value
      unfold fileUnder?
      rw [List.find?_congr hopen]
    let behind := tag.closing ++ (more.render ++ rest)
    let found := (if tag.marksName then content.onlyText?.filter (!·.isEmpty) else none).bind
      (fileUnder? fun kind ↦ ancestors.contains kind.tag)
    have hfound : headDefinition? isOpen (tag.render false ++ (content.render ++ behind)) =
        found := by
      rw [headDefinition?, taggedName?_render, Option.bind_map, hfile]
      rfl
    calc
      scanForward .strict isOpen ((Content.element tag content more).render ++ rest) =
          scanForward .strict isOpen (tag.render false ++ (content.render ++ behind)) := by
        rw [Content.render, List.append_assoc, List.append_assoc, List.append_assoc]
      _ = found.toList ++ scanForward .strict (fun kind ↦ kind.tag == tag.name || isOpen kind)
          (content.render ++ behind) := by
        rw [scanForward_opening, hfound]
      _ = found.toList ++ (content.tagged (tag.name :: ancestors) ++
          scanForward .strict (fun kind ↦ kind.tag == tag.name || isOpen kind) behind) := by
        rw [ihcontent _ hpaired.1 hcontent hinside]
      _ = found.toList ++ (content.tagged (tag.name :: ancestors) ++
          scanForward .strict isOpen (more.render ++ rest)) := by
        rw [scanForward_closing, scanForward_congr hrestored]
      _ = (Content.element tag content more).tagged ancestors ++
          scanForward .strict isOpen rest := by
        rw [ihmore _ hpaired.2 hmore hopen, Content.tagged, List.append_assoc, List.append_assoc]
  | single tag more => cases hpaired

/-- On a well-formed document without self-closing elements, in which no recognized element is
nested inside itself, strict extraction finds exactly what the tree says. -/
theorem extract_strict_render (doc : Content) (hpaired : doc.isPaired = true)
    (hnested : doc.nestsInItself [] = false)
    (hvalues : ∀ tag ∈ doc.tags, ∀ a ∈ tag.attributes, ¬EndsInBlankName a.value) :
    extract .strict doc.render = doc.tagged [] ++ doc.named := by
  have htagged : taggedDefinitions .strict doc.render = doc.tagged [] := by
    have hopen : ∀ kind ∈ DefKind.all, (fun _ : DefKind ↦ false) kind = [].contains kind.tag :=
      fun kind _ ↦ rfl
    have hscan := scanForward_render [] hpaired hnested hopen
    rw [List.append_nil] at hscan
    rw [taggedDefinitions_eq_scanForward, hscan, scanForward, List.append_nil]
  have hnamed : namedDefinitions .strict doc.render = doc.named := by
    have hnames : ∀ kind, tagNames .strict kind doc.render =
        (doc.tags.filter (·.name == kind.tag)).filterMap Tag.nameValue? := by
      intro kind
      have hcontent := tagNames_render_content kind [] hvalues
      rw [List.append_nil, tagNames, List.append_nil] at hcontent
      exact hcontent
    simp only [namedDefinitions, Content.named, hnames, List.map_filterMap]
  rw [extract, htagged, hnamed]

/-- `<ThingDef Name="Base" ParentName="Root"><defName>Steel</defName>` with a `<HediffDef>` inside,
which defines a second name. -/
def nestedSample : Content :=
  .element parentLast
    (.element plainName (.text "Steel".toList (by decide) .nothing)
      (.element plainHediff
        (.element plainName (.text "Burn".toList (by decide) .nothing) .nothing)
        .nothing))
    .nothing

theorem extract_strict_nestedSample :
    nestedSample.isPaired = true ∧ nestedSample.nestsInItself [] = false ∧
      (∀ tag ∈ nestedSample.tags, ∀ a ∈ tag.attributes, ¬EndsInBlankName a.value) ∧
      extract .strict nestedSample.render =
        [⟨"thing".toList, "Steel".toList⟩, ⟨"hediff".toList, "Burn".toList⟩,
          ⟨"thing".toList, "Base".toList⟩] := by
  have hvalues : ∀ tag ∈ nestedSample.tags, ∀ a ∈ tag.attributes, ¬EndsInBlankName a.value := by
    decide
  refine ⟨by decide, by decide, hvalues, ?_⟩
  rw [extract_strict_render nestedSample (by decide) (by decide) hvalues]
  decide

end DefCatalog.Markup
