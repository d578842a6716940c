import DefCatalog.Json.Reader
import DefCatalog.Proofs.Json.Lexemes

/-!
# Reading back what was printed

The tokens of a value are those of its parts, in their order. They lead the reader from any stack
of frames to that stack with the value put in, so whatever is spelled from the tokens of a value is
read as this value. A printed value is spelled from its own tokens, with its strings as they are
reread, if its numbers are natural.
-/

namespace DefCatalog.Json

mutual

/-- The tokens of a value. -/
def Value.tokens : Value → List Token
  | .null => [.null]
  | .bool b => [.bool b]
  | .number number => [.number number]
  | .string body => [.string body]
  | .array [] => [.openBracket, .closeBracket]
  | .array (item :: items) => .openBracket :: (item.tokens ++ itemTokens items ++ [.closeBracket])
  | .object [] => [.openBrace, .closeBrace]
  | .object ((key, value) :: members) =>
    .openBrace :: .string key :: .colon ::
      (value.tokens ++ memberTokens members ++ [.closeBrace])

/-- The tokens of the items after the first one. -/
def itemTokens : List Value → List Token
  | [] => []
  | item :: items => .comma :: (item.tokens ++ itemTokens items)

/-- The tokens of the members after the first one. -/
def memberTokens : List (StringBody × Value) → List Token
  | [] => []
  | (key, value) :: members =>
    .comma :: .string key :: .colon :: (value.tokens ++ memberTokens members)

end

mutual

/-- A value as it is read back. -/
def Value.reread : Value → Value
  | .null => .null
  | .bool b => .bool b
  | .number number => .number number
  | .string body => .string (body.map Piece.reread)
  | .array items => .array (rereadItems items)
  | .object members => .object (rereadMembers members)

def rereadItems : List Value → List Value
  | [] => []
  | item :: items => item.reread :: rereadItems items

def rereadMembers : List (StringBody × Value) → List (StringBody × Value)
  | [] => []
  | (key, value) :: members => (key.map Piece.reread, value.reread) :: rereadMembers members

end

/-- Whether all numbers among the tokens are natural numbers. -/
def HasNaturals (tokens : List Token) : Prop :=
  ∀ number, .number number ∈ tokens → ∃ n, number = .ofNat n

theorem HasNaturals.of_subset {part tokens : List Token} (h : HasNaturals tokens)
    (hpart : ∀ token ∈ part, token ∈ tokens) : HasNaturals part :=
  fun number hmem ↦ h number (hpart _ hmem)

theorem hasNaturals_ofText (text : Text) : HasNaturals (Value.ofText text).tokens := by
  intro number hmem
  simp [Value.ofText, Value.tokens] at hmem

theorem mem_itemTokens {items : List Value} {number : Number}
    (h : .number number ∈ itemTokens items) : ∃ item ∈ items, .number number ∈ item.tokens := by
  induction items with
  | nil => cases h
  | cons item items ih =>
    have hparts : .number number ∈ item.tokens ∨ .number number ∈ itemTokens items := by
      simpa [itemTokens] using h
    rcases hparts with hitem | hitems
    · exact ⟨item, List.mem_cons_self, hitem⟩
    · obtain ⟨other, hother, hmem⟩ := ih hitems
      exact ⟨other, List.mem_cons_of_mem _ hother, hmem⟩

theorem hasNaturals_array {items : List Value} (h : ∀ item ∈ items, HasNaturals item.tokens) :
    HasNaturals (Value.array items).tokens := by
  intro number hmem
  cases items with
  | nil => simp [Value.tokens] at hmem
  | cons first items =>
    have hparts : .number number ∈ first.tokens ∨ .number number ∈ itemTokens items := by
      simpa [Value.tokens] using hmem
    rcases hparts with hfirst | hitems
    · exact h first List.mem_cons_self number hfirst
    · obtain ⟨item, hitem, htoken⟩ := mem_itemTokens hitems
      exact h item (List.mem_cons_of_mem _ hitem) number htoken

theorem mem_memberTokens {members : List (StringBody × Value)} {number : Number}
    (h : .number number ∈ memberTokens members) :
    ∃ member ∈ members, .number number ∈ member.2.tokens := by
  induction members with
  | nil => cases h
  | cons member members ih =>
    obtain ⟨key, value⟩ := member
    have hparts : .number number ∈ value.tokens ∨ .number number ∈ memberTokens members := by
      simpa [memberTokens] using h
    rcases hparts with hvalue | hmembers
    · exact ⟨_, List.mem_cons_self, hvalue⟩
    · obtain ⟨other, hother, hmem⟩ := ih hmembers
      exact ⟨other, List.mem_cons_of_mem _ hother, hmem⟩

theorem hasNaturals_object {members : List (StringBody × Value)}
    (h : ∀ member ∈ members, HasNaturals member.2.tokens) :
    HasNaturals (Value.object members).tokens := by
  intro number hmem
  cases members with
  | nil => simp [Value.tokens] at hmem
  | cons first members =>
    obtain ⟨key, value⟩ := first
    have hparts : .number number ∈ value.tokens ∨ .number number ∈ memberTokens members := by
      simpa [Value.tokens] using hmem
    rcases hparts with hfirst | hmembers
    · exact h _ List.mem_cons_self number hfirst
    · obtain ⟨member, hmember, htoken⟩ := mem_memberTokens hmembers
      exact h member (List.mem_cons_of_mem _ hmember) number htoken

theorem spells_lineBreak (level : Nat) : Spells [] (lineBreak level) := by
  refine .blanks fun c hmem ↦ ?_
  rcases List.mem_cons.mp hmem with rfl | hspace
  · rfl
  · rw [List.eq_of_mem_replicate hspace]
    rfl

theorem spells_space : Spells [] [' '] :=
  .blanks fun _ hmem ↦ List.mem_singleton.mp hmem ▸ rfl

mutual

theorem spells_valueText (level : Nat) (value : Value) (hnumbers : HasNaturals value.tokens) :
    Spells value.reread.tokens (valueText level value) := by
  match value with
  | .null => exact Token.SpelledBy.nullWord.spells
  | .bool true => exact Token.SpelledBy.trueWord.spells
  | .bool false => exact Token.SpelledBy.falseWord.spells
  | .number number =>
    obtain ⟨n, rfl⟩ := hnumbers number (by simp [Value.tokens])
    exact (Token.SpelledBy.number (Number.isValid_ofNat n)).spells
  | .string body => exact (spelledBy_stringText body).spells
  | .array [] => exact Token.SpelledBy.openBracket.spells.append Token.SpelledBy.closeBracket.spells
  | .array (item :: items) =>
    have hitem := spells_valueText (level + 1) item
      (hnumbers.of_subset fun token hmem ↦ by simp [Value.tokens, hmem])
    have hitems := spells_itemsText (level + 1) items
      (hnumbers.of_subset fun token hmem ↦ by simp [Value.tokens, hmem])
    have hall := Token.SpelledBy.openBracket.spells.append ((spells_lineBreak (level + 1)).append
      (hitem.append (hitems.append ((spells_lineBreak level).append
        Token.SpelledBy.closeBracket.spells))))
    simpa only [valueText, Value.reread, rereadItems, Value.tokens, List.append_assoc,
      List.cons_append, List.nil_append] using hall
  | .object [] => exact Token.SpelledBy.openBrace.spells.append Token.SpelledBy.closeBrace.spells
  | .object ((key, value) :: members) =>
    have hvalue := spells_valueText (level + 1) value
      (hnumbers.of_subset fun token hmem ↦ by simp [Value.tokens, hmem])
    have hmembers := spells_membersText (level + 1) members
      (hnumbers.of_subset fun token hmem ↦ by simp [Value.tokens, hmem])
    have hmember := (spelledBy_stringText key).spells.append
      (Token.SpelledBy.colon.spells.append (spells_space.append hvalue))
    have hall := Token.SpelledBy.openBrace.spells.append ((spells_lineBreak (level + 1)).append
      (hmember.append (hmembers.append ((spells_lineBreak level).append
        Token.SpelledBy.closeBrace.spells))))
    simpa only [valueText, Value.reread, rereadMembers, Value.tokens, List.append_assoc,
      List.cons_append, List.nil_append] using hall

theorem spells_itemsText (level : Nat) (items : List Value)
    (hnumbers : HasNaturals (itemTokens items)) :
    Spells (itemTokens (rereadItems items)) (itemsText level items) := by
  match items with
  | [] => exact .blanks fun _ hmem ↦ nomatch hmem
  | item :: items =>
    have hitem := spells_valueText level item
      (hnumbers.of_subset fun token hmem ↦ by simp [itemTokens, hmem])
    have hitems := spells_itemsText level items
      (hnumbers.of_subset fun token hmem ↦ by simp [itemTokens, hmem])
    have hall := Token.SpelledBy.comma.spells.append
      ((spells_lineBreak level).append (hitem.append hitems))
    simpa only [itemsText, rereadItems, itemTokens, List.append_assoc, List.cons_append,
      List.nil_append] using hall

theorem spells_membersText (level : Nat) (members : List (StringBody × Value))
    (hnumbers : HasNaturals (memberTokens members)) :
    Spells (memberTokens (rereadMembers members)) (membersText level members) := by
  match members with
  | [] => exact .blanks fun _ hmem ↦ nomatch hmem
  | (key, value) :: members =>
    have hvalue := spells_valueText level value
      (hnumbers.of_subset fun token hmem ↦ by simp [memberTokens, hmem])
    have hmembers := spells_membersText level members
      (hnumbers.of_subset fun token hmem ↦ by simp [memberTokens, hmem])
    have hmember := (spelledBy_stringText key).spells.append
      (Token.SpelledBy.colon.spells.append (spells_space.append hvalue))
    have hall := Token.SpelledBy.comma.spells.append
      ((spells_lineBreak level).append (hmember.append hmembers))
    simpa only [membersText, rereadMembers, memberTokens, List.append_assoc, List.cons_append,
      List.nil_append] using hall

end

theorem spells_write {value : Value} (hnumbers : HasNaturals value.tokens) :
    Spells value.reread.tokens (write value) :=
  spells_valueText 0 value hnumbers

theorem NumbersEnd.cons {token : Token} {tokens : List Token} (h : NumbersEnd tokens)
    (htoken : ∀ number, token ≠ .number number) : NumbersEnd (token :: tokens) := by
  refine List.isChain_cons.mpr ⟨fun next _ hnumber ↦ ?_, h⟩
  obtain ⟨number, hnumber⟩ := hnumber
  exact absurd hnumber (htoken number)

theorem NumbersEnd.member {tokens : List Token} (h : NumbersEnd tokens) (key : StringBody) :
    NumbersEnd (.string key :: .colon :: tokens) :=
  (h.cons fun _ ↦ Token.noConfusion).cons fun _ ↦ Token.noConfusion

/-- Whether some tokens may follow a value. -/
def FollowsValue (tokens : List Token) : Prop :=
  NumbersEnd tokens ∧ ∀ next ∈ tokens.head?, next.IsEnd

theorem FollowsValue.cons {token : Token} {tokens : List Token} (h : NumbersEnd tokens)
    (htoken : token.IsEnd) : FollowsValue (token :: tokens) := by
  refine ⟨h.cons ?_, fun next hnext ↦ ?_⟩
  · rintro number rfl
    rcases htoken with heq | heq | heq <;> cases heq
  · cases hnext
    exact htoken

mutual

theorem numbersEnd_tokens_append (value : Value) {rest : List Token} (hrest : FollowsValue rest) :
    NumbersEnd (value.tokens ++ rest) := by
  match value with
  | .null | .bool _ | .string _ => exact hrest.1.cons fun _ ↦ Token.noConfusion
  | .number number => exact List.isChain_cons.mpr ⟨fun next hnext _ ↦ hrest.2 next hnext, hrest.1⟩
  | .array [] | .object [] =>
    exact (hrest.1.cons fun _ ↦ Token.noConfusion).cons fun _ ↦ Token.noConfusion
  | .array (item :: items) =>
    have hclose : FollowsValue (.closeBracket :: rest) := .cons hrest.1 (Or.inr (Or.inl rfl))
    have hitem := numbersEnd_tokens_append item (followsValue_itemTokens_append items hclose)
    have hall : NumbersEnd (.openBracket :: _) := hitem.cons fun _ ↦ Token.noConfusion
    simpa only [Value.tokens, List.append_assoc, List.cons_append, List.nil_append] using hall
  | .object ((key, value) :: members) =>
    have hclose : FollowsValue (.closeBrace :: rest) := .cons hrest.1 (Or.inr (Or.inr rfl))
    have hvalue := numbersEnd_tokens_append value (followsValue_memberTokens_append members hclose)
    have hall : NumbersEnd (.openBrace :: _) := (hvalue.member key).cons fun _ ↦ Token.noConfusion
    simpa only [Value.tokens, List.append_assoc, List.cons_append, List.nil_append] using hall

theorem followsValue_itemTokens_append (items : List Value) {rest : List Token}
    (hrest : FollowsValue rest) : FollowsValue (itemTokens items ++ rest) := by
  match items with
  | [] => exact hrest
  | item :: items =>
    have hitems := followsValue_itemTokens_append items hrest
    have hitem := numbersEnd_tokens_append item hitems
    have hall : FollowsValue (.comma :: _) := .cons hitem (Or.inl rfl)
    simpa only [itemTokens, List.append_assoc, List.cons_append] using hall

theorem followsValue_memberTokens_append (members : List (StringBody × Value)) {rest : List Token}
    (hrest : FollowsValue rest) : FollowsValue (memberTokens members ++ rest) := by
  match members with
  | [] => exact hrest
  | (key, value) :: members =>
    have hmembers := followsValue_memberTokens_append members hrest
    have hvalue := numbersEnd_tokens_append value hmembers
    have hall : FollowsValue (.comma :: _) := .cons (hvalue.member key) (Or.inl rfl)
    simpa only [memberTokens, List.append_assoc, List.cons_append] using hall

end

/-- What may come next after some tokens. -/
def Expectation.after? (expectation : Expectation) (tokens : List Token) : Option Expectation :=
  tokens.foldlM Expectation.next expectation

namespace Expectation

theorem after?_cons {expectation expectation' : Expectation} {token : Token}
    (h : expectation.next token = some expectation') (rest : List Token) :
    expectation.after? (token :: rest) = expectation'.after? rest := by
  rw [after?, List.foldlM_cons, h]
  rfl

theorem after?_itemOrEnd (frames : List Frame) (item : Value) (rest : List Token) :
    (itemOrEnd frames).after? (item.tokens ++ rest) =
      (value (.array [] :: frames)).after? (item.tokens ++ rest) := by
  match item with
  | .null | .bool _ | .number _ | .string _ => rfl
  | .array [] | .array (_ :: _) | .object [] | .object ((_, _) :: _) => rfl

mutual

theorem after?_tokens (item : Value) (frames : List Frame) (rest : List Token) :
    (value frames).after? (item.tokens ++ rest) = (afterValue item frames).after? rest := by
  match item with
  | .null | .bool _ | .number _ | .string _ => rfl
  | .array [] => rfl
  | .array (first :: items) =>
    calc
      (value frames).after? ((Value.array (first :: items)).tokens ++ rest) =
          (itemOrEnd frames).after?
            (first.tokens ++ (itemTokens items ++ .closeBracket :: rest)) := by
        rw [Value.tokens, List.cons_append, after?_cons rfl, List.append_assoc, List.append_assoc,
          List.singleton_append]
      _ = (afterItem [first] frames).after? (itemTokens items ++ .closeBracket :: rest) := by
        rw [after?_itemOrEnd, after?_tokens first]
        rfl
      _ = (afterValue (.array (first :: items)) frames).after? rest :=
        after?_itemTokens items [first] frames rest
  | .object [] => rfl
  | .object ((key, first) :: members) =>
    calc
      (value frames).after? ((Value.object ((key, first) :: members)).tokens ++ rest) =
          (value (.object [] key :: frames)).after?
            (first.tokens ++ (memberTokens members ++ .closeBrace :: rest)) := by
        rw [Value.tokens, List.cons_append, after?_cons rfl, List.cons_append, after?_cons rfl,
          List.cons_append, after?_cons rfl, List.append_assoc, List.append_assoc,
          List.singleton_append]
      _ = (afterMember [(key, first)] frames).after?
            (memberTokens members ++ .closeBrace :: rest) := by
        rw [after?_tokens first]
        rfl
      _ = (afterValue (.object ((key, first) :: members)) frames).after? rest :=
        after?_memberTokens members [(key, first)] frames rest

theorem after?_itemTokens (items latest : List Value) (frames : List Frame) (rest : List Token) :
    (afterItem latest frames).after? (itemTokens items ++ .closeBracket :: rest) =
      (afterValue (.array (latest.reverse ++ items)) frames).after? rest := by
  match items with
  | [] => rw [List.append_nil]; rfl
  | item :: items =>
    calc
      (afterItem latest frames).after? (itemTokens (item :: items) ++ .closeBracket :: rest) =
          (value (.array latest :: frames)).after?
            (item.tokens ++ (itemTokens items ++ .closeBracket :: rest)) := by
        rw [itemTokens, List.cons_append, after?_cons rfl, List.append_assoc]
      _ = (afterItem (item :: latest) frames).after? (itemTokens items ++ .closeBracket :: rest) := by
        rw [after?_tokens item]
        rfl
      _ = (afterValue (.array (latest.reverse ++ item :: items)) frames).after? rest := by
        rw [after?_itemTokens items, List.reverse_cons, List.append_assoc, List.singleton_append]

theorem after?_memberTokens (members latest : List (StringBody × Value)) (frames : List Frame)
    (rest : List Token) :
    (afterMember latest frames).after? (memberTokens members ++ .closeBrace :: rest) =
      (afterValue (.object (latest.reverse ++ members)) frames).after? rest := by
  match members with
  | [] => rw [List.append_nil]; rfl
  | (key, first) :: members =>
    calc
      (afterMember latest frames).after?
            (memberTokens ((key, first) :: members) ++ .closeBrace :: rest) =
          (value (.object latest key :: frames)).after?
            (first.tokens ++ (memberTokens members ++ .closeBrace :: rest)) := by
        rw [memberTokens, List.cons_append, after?_cons rfl, List.cons_append, after?_cons rfl,
          List.cons_append, after?_cons rfl, List.append_assoc]
      _ = (afterMember ((key, first) :: latest) frames).after?
            (memberTokens members ++ .closeBrace :: rest) := by
        rw [after?_tokens first]
        rfl
      _ = (afterValue (.object (latest.reverse ++ (key, first) :: members)) frames).after? rest := by
        rw [after?_memberTokens members, List.reverse_cons, List.append_assoc, List.singleton_append]

end

end Expectation

theorem ofTokens?_tokens (value : Value) : ofTokens? value.tokens = some value := by
  have hafter := Expectation.after?_tokens value [] []
  rw [List.append_nil] at hafter
  unfold Expectation.after? at hafter
  rw [ofTokens?, hafter]
  rfl

theorem Spells.read? {value : Value} {text : Text} (h : Spells value.tokens text) :
    read? text = some value := by
  have hend : NumbersEnd value.tokens := by
    have hnone : FollowsValue [] := ⟨List.isChain_nil, fun _ hnext ↦ nomatch hnext⟩
    simpa using numbersEnd_tokens_append value hnone
  rw [Json.read?, h.tokens? hend]
  exact ofTokens?_tokens value

/-- A printed value whose numbers are natural is read back. -/
theorem read?_write {value : Value} (hnumbers : HasNaturals value.tokens) :
    read? (write value) = some value.reread :=
  (spells_write hnumbers).read?

theorem rereadItems_eq_map (items : List Value) : rereadItems items = items.map Value.reread := by
  induction items with
  | nil => rfl
  | cons item items ih => rw [rereadItems, ih, List.map_cons]

theorem text?_reread_ofText (text : Text) : (Value.ofText text).reread.text? = some text :=
  textOf?_reread text

end DefCatalog.Json
