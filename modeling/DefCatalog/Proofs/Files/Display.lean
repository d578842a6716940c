import DefCatalog.Files.Display
import DefCatalog.Proofs.Files.Shortening
import DefCatalog.Proofs.Text.Malformed

/-!
# What a displayed path tells

Whatever the bytes of a path are, the place that it stands for can be read off the bytes that it is
shortened to. They are displayed as they are if they are UTF-8, and bytes that were UTF-8 stay so
when a home directory is cut off. Other bytes cannot be told apart once U+FFFD stands for them.
-/

namespace DefCatalog

namespace Path

variable {path home : Path}

theorem intercalate_of_forall {good : Text → Prop} {pieces : List Text} (hnil : good [])
    (hslash : ∀ s t, good s → good t → good (s ++ '/' :: t)) (h : ∀ piece ∈ pieces, good piece) :
    good (['/'].intercalate pieces) := by
  induction pieces with
  | nil => exact hnil
  | cons piece pieces ih =>
    obtain ⟨hpiece, hpieces⟩ := List.forall_mem_cons.mp h
    cases pieces with
    | nil => rwa [List.intercalate_singleton]
    | cons next more =>
      rw [List.intercalate_cons_of_ne_nil (List.cons_ne_nil _ _), List.append_assoc]
      exact hslash _ _ hpiece (ih hpieces)

/-- What holds of a path and its segments, and goes over to texts that are joined by slashes, holds of
the path with a tilde. -/
theorem shorten_of_forall (good : Text → Prop) (hnil : good []) (htilde : good ['~'])
    (hslash : ∀ s t, good s → good t → good (s ++ '/' :: t)) (hpath : good path.spelling)
    (hsegments : ∀ segment ∈ Text.splitOn '/' path.spelling, good segment) :
    good (path.shorten home).spelling := by
  unfold shorten
  split
  · exact hpath
  · split
    · exact hpath
    · rename_i rest hrest
      have hgood : good rest.spelling := by
        obtain ⟨head, body, hparts⟩ : ∃ head body, path.headAndBody = (head, body) := ⟨_, _, rfl⟩
        unfold relativeTo? at hrest
        rw [hparts] at hrest
        dsimp only at hrest
        split at hrest
        · obtain rfl := Option.some.inj hrest
          apply intercalate_of_forall hnil hslash
          intro segment hmem
          apply hsegments
          apply (headAndBody_cases hparts).2
          apply mem_of_mem_dropSteps
          apply (List.dropWhile_sublist _).subset
          obtain ⟨idle, hidle, _⟩ := trimEnd_append (List.dropWhile isIdle _)
          rw [hidle]
          exact List.mem_append_left _ hmem
        · cases hrest
      split
      · exact htilde
      · unfold join
        split
        · exact hgood
        · rw [if_neg (by decide)]
          exact hslash _ _ htilde hgood

end Path

namespace RawPath

variable {path home other : RawPath} {text : Text}

theorem toNat_ofNat_byte (byte : UInt8) : (Char.ofNat byte.toNat).toNat = byte.toNat := by
  have hvalid : byte.toNat.isValidChar := Or.inl (Nat.lt_trans byte.toNat_lt (by decide))
  rw [Char.ofNat, dif_pos hvalid]
  rfl

theorem ofBytewise_bytewise (path : RawPath) : ofBytewise path.bytewise = path := by
  have hbyte : ((fun c : Char ↦ UInt8.ofNat c.toNat) ∘ fun byte : UInt8 ↦ Char.ofNat byte.toNat) =
      id := by
    funext byte
    rw [Function.comp_apply, toNat_ofNat_byte, UInt8.ofNat_toNat, id]
  rw [ofBytewise, bytewise, List.map_map, hbyte, List.map_id]

theorem bytewise_ofBytewise {path : Path} (h : ∀ c ∈ path.spelling, c.toNat < 256) :
    (ofBytewise path).bytewise = path := by
  have hchar : ∀ c ∈ path.spelling, Char.ofNat (UInt8.ofNat c.toNat).toNat = c := by
    intro c hc
    rw [UInt8.toNat_ofNat_of_lt' (h c hc), Char.ofNat_toNat]
  rw [ofBytewise, bytewise, List.map_map]
  exact congrArg Path.mk ((List.map_congr_left hchar).trans (List.map_id _))

theorem bytewise_shorten (path home : RawPath) :
    (path.shorten home).bytewise = path.bytewise.shorten home.bytewise := by
  have hbytes : ∀ c ∈ path.bytewise.spelling, c.toNat < 256 := by
    intro c hc
    obtain ⟨byte, _, rfl⟩ := List.mem_map.mp hc
    rw [toNat_ofNat_byte]
    exact byte.toNat_lt
  apply bytewise_ofBytewise
  apply Path.shorten_of_forall fun text ↦ ∀ c ∈ text, c.toNat < 256
  · exact List.forall_mem_nil _
  · exact List.forall_mem_singleton.mpr (by decide)
  · intro s t hs ht c hc
    rcases List.mem_append.mp hc with hmem | hmem
    · exact hs c hmem
    · rcases List.mem_cons.mp hmem with rfl | hmem
      · decide
      · exact ht c hmem
  · exact hbytes
  · exact fun segment hsegment c hc ↦ hbytes c (Text.mem_of_mem_splitOn hsegment hc)

/-- Whether the bytes of a path are those of a text. -/
def IsText (path : RawPath) : Prop :=
  ∃ text, path = ofText text

/-- The characters of a text with one character for each byte. -/
def spell (c : Char) : Text :=
  (String.utf8EncodeChar c).map fun byte ↦ Char.ofNat byte.toNat

theorem bytewise_ofText (text : Text) : (ofText text).bytewise = ⟨text.flatMap spell⟩ := by
  rw [bytewise, ofText, Utf8.encode, List.map_flatMap]
  rfl

theorem not_mem_spell {c : Char} (hc : c ≠ '/') : '/' ∉ spell c := by
  intro hmem
  obtain ⟨byte, hbyte, hslash⟩ := List.mem_map.mp hmem
  obtain rfl : byte = 0x2F := by
    have hnat := congrArg Char.toNat hslash
    rw [toNat_ofNat_byte] at hnat
    exact UInt8.toNat_inj.mp hnat
  obtain ⟨before, after, hbytes⟩ := List.append_of_mem hbyte
  have hstart : Utf8.State.start.WaitsForTail := trivial
  have hlead : ¬Utf8.IsTail 0x2F := fun h ↦ absurd h.1 (by decide)
  have hpieces : Utf8.piecesFrom .start before ++
      (some '/' :: Utf8.piecesFrom .start after) = [some c] := by
    calc
      Utf8.piecesFrom .start before ++ (some '/' :: Utf8.piecesFrom .start after) =
          Utf8.piecesFrom .start (before ++ 0x2F :: after) :=
        (Utf8.piecesFrom_append_cons hstart hlead before after).symm
      _ = Utf8.piecesFrom .start (String.utf8EncodeChar c ++ []) := by rw [hbytes, List.append_nil]
      _ = [some c] := Utf8.piecesFrom_utf8EncodeChar c []
  rcases List.append_eq_singleton_iff.mp hpieces with ⟨_, hlast⟩ | ⟨_, hnone⟩
  · exact hc (Option.some.inj (List.cons.inj hlast).1).symm
  · cases hnone

theorem IsText.shorten (h : path.IsText) (home : RawPath) : (path.shorten home).IsText := by
  obtain ⟨text, rfl⟩ := h
  have hspelled : ∃ shown : Text,
      ((ofText text).bytewise.shorten home.bytewise).spelling = shown.flatMap spell := by
    apply Path.shorten_of_forall fun spelled ↦ ∃ shown : Text, spelled = shown.flatMap spell
    · exact ⟨[], rfl⟩
    · exact ⟨['~'], by decide⟩
    · rintro _ _ ⟨s, rfl⟩ ⟨t, rfl⟩
      exact ⟨s ++ '/' :: t, by rw [List.flatMap_append, List.flatMap_cons]; rfl⟩
    · exact ⟨text, congrArg Path.spelling (bytewise_ofText text)⟩
    · intro segment hsegment
      rw [bytewise_ofText, Text.splitOn_flatMap (by decide) fun c ↦ not_mem_spell] at hsegment
      obtain ⟨piece, _, rfl⟩ := List.mem_map.mp hsegment
      exact ⟨piece, rfl⟩
  obtain ⟨shown, hshown⟩ := hspelled
  refine ⟨shown, ?_⟩
  calc
    (ofText text).shorten home = ofBytewise (ofText shown).bytewise := by
      rw [RawPath.shorten, bytewise_ofText shown]
      exact congrArg (fun spelled ↦ ofBytewise ⟨spelled⟩) hshown
    _ = ofText shown := ofBytewise_bytewise _

theorem IsText.ofText_display (h : path.IsText) : ofText path.display = path := by
  obtain ⟨text, rfl⟩ := h
  exact congrArg ofText (Utf8.decodeLossy_encode text)

/-- Whether the first component of a path is a tilde. -/
def BeginsWithTilde (path : RawPath) : Prop :=
  path.bytewise.BeginsWithTilde

instance (path : RawPath) : Decidable path.BeginsWithTilde :=
  inferInstanceAs (Decidable path.bytewise.BeginsWithTilde)

/-- The path that a shown one stands for: a home directory is put in the place of a tilde at its
head. -/
def expand (shown home : RawPath) : RawPath :=
  if shown.BeginsWithTilde then ⟨home.bytes ++ shown.bytes.drop 1⟩ else shown

theorem bytewise_expand (shown home : RawPath) :
    (shown.expand home).bytewise = shown.bytewise.expand home.bytewise := by
  by_cases hraw : shown.BeginsWithTilde
  · have hshown : shown.bytewise.BeginsWithTilde := hraw
    rw [expand, if_pos hraw, Path.expand, if_pos hshown, bytewise, List.map_append, List.map_drop]
    rfl
  · have hshown : ¬shown.bytewise.BeginsWithTilde := hraw
    rw [expand, if_neg hraw, Path.expand, if_neg hshown]

/-- What it is to tell by a tilde whether a path is in a home directory, and where it leads. -/
structure Tells (shown path home : RawPath) : Prop where
  beginsWithTilde_iff : shown.BeginsWithTilde ↔ home.components <+: path.components
  eq_of_outside : ¬home.components <+: path.components → shown = path
  components_expand : (shown.expand home).components = path.components

theorem tells_shorten (hhome : home.bytes ≠ []) (hpath : ¬path.BeginsWithTilde) :
    (path.shorten home).Tells path home := by
  have hspelling : home.bytewise.spelling ≠ [] := mt List.map_eq_nil_iff.mp hhome
  obtain ⟨hbegins, houtside, hplace⟩ := Path.shorten_reversible hspelling hpath
  rw [← bytewise_shorten] at hbegins houtside hplace
  refine ⟨hbegins, fun hnone ↦ ?_, ?_⟩
  · rw [← ofBytewise_bytewise (path.shorten home), houtside hnone, ofBytewise_bytewise]
  · rw [components, bytewise_expand]
    exact hplace

/-- The bytes that a path is shortened to tell whether it is in the home directory and where it
leads. If the path is in UTF-8, the text that is displayed tells this too, so paths in UTF-8 that
are displayed alike have the same components. -/
theorem display_tells (hhome : home.bytes ≠ []) (hpath : ¬path.BeginsWithTilde) :
    (path.shorten home).Tells path home ∧
      (path.IsText → (ofText (path.shorten home).display).Tells path home ∧
        ∀ other : RawPath, other.IsText → ¬other.BeginsWithTilde →
          (other.shorten home).display = (path.shorten home).display →
            other.components = path.components) := by
  have htells := tells_shorten hhome hpath
  refine ⟨htells, fun htext ↦ ⟨?_, fun other hother htilde hshown ↦ ?_⟩⟩
  · rwa [(htext.shorten home).ofText_display]
  · have hsame : other.shorten home = path.shorten home := by
      rw [← (hother.shorten home).ofText_display, hshown, (htext.shorten home).ofText_display]
    rw [← (tells_shorten hhome htilde).components_expand, hsame, htells.components_expand]

/-- In a home directory whose name has a character of two bytes. -/
theorem display_tells_sample :
    let home := ofText "//h/é/.".toList
    let path := ofText "/h//é/./../x//y/".toList
    (path.shorten home).display = "~/../x//y".toList ∧
      (ofText "~/../x//y".toList).Tells path home ∧
      (ofText "/h/é/../x//y".toList).components = path.components := by
  intro home path
  have hhome : home.bytes ≠ [] := by decide
  have hpath : ¬path.BeginsWithTilde := by decide
  have hdisplay : (path.shorten home).display = "~/../x//y".toList := by decide
  obtain ⟨_, htext⟩ := display_tells hhome hpath
  obtain ⟨htells, hothers⟩ := htext ⟨_, rfl⟩
  rw [hdisplay] at htells
  exact ⟨hdisplay, htells, hothers _ ⟨_, rfl⟩ (by decide) (by decide)⟩

/-- Bytes that are not UTF-8 are not told apart. -/
theorem not_forall_components_eq_of_display_eq :
    ¬∀ home path other : RawPath, home.bytes ≠ [] → ¬path.BeginsWithTilde →
      ¬other.BeginsWithTilde → (other.shorten home).display = (path.shorten home).display →
        other.components = path.components := by
  intro hall
  have hsame := hall (ofText "/h".toList) ⟨[0x2F, 0x78, 0x2F, 0xFF]⟩ ⟨[0x2F, 0x78, 0x2F, 0xFE]⟩
    (by decide) (by decide) (by decide) (by decide)
  exact absurd hsame (by decide)

end RawPath

end DefCatalog
