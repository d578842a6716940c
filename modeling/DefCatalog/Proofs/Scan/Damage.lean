import DefCatalog.Proofs.Scan.Coverage
import DefCatalog.Proofs.Text.Malformed

/-!
# Damaged documents

A document may hold bytes that are no text. What is found in it is what is found in the texts around
these bytes with their replacement in between, which is the same wherever the bytes stand. So a
damaged place hides nothing after it, on either route through a folder.
-/

namespace DefCatalog

open Utf8

variable {files : FileSystem} {matching : Matching} {route : Route} {root path : Path}
  {before after : List Encounter} {content : Bytes}

namespace Harvest

/-- What is found on a route that meets a document: what is found before, in the document and
after. -/
theorem found_of_encounters
    (h : route.encounters files root = before ++ .document path content :: after) :
    found files matching route root =
      before.flatMap (Encounter.definitions matching) ++
        (Markup.extract matching (decodeLossy content) ++
          after.flatMap (Encounter.definitions matching)) := by
  rw [found, h, List.flatMap_append, List.flatMap_cons]
  rfl

/-- Whether readers of a document with some bytes between two texts get past these bytes. -/
structure ReadsPast (matching : Matching) (s t : Text) (junk : Bytes) : Prop where
  /-- The document is searched as the two texts with the replacement of the bytes in between. -/
  definitions_eq (path : Path) :
    (Encounter.document path (encode s ++ junk ++ encode t)).definitions matching =
      Markup.extract matching (s ++ decodeLossy junk ++ t)
  /-- This is what is filed, in its place, on every route that meets the document. -/
  catalog_eq (files : FileSystem) (route : Route) (root path : Path) (catalog : Catalog)
      (before after : List Encounter) :
    route.encounters files root =
        before ++ .document path (encode s ++ junk ++ encode t) :: after →
      (reap files matching route root catalog).value.catalog =
        ((catalog.insertAll (before.flatMap (Encounter.definitions matching))).insertAll
            (Markup.extract matching (s ++ decodeLossy junk ++ t))).insertAll
          (after.flatMap (Encounter.definitions matching))
  /-- Bytes are never passed over without a replacement. -/
  eq_nil_iff : decodeLossy junk = [] ↔ junk = []
  /-- The bytes of a text are not replaced, and a document that holds nothing else is searched as
  it stands. -/
  of_encode (text : Text) : junk = encode text →
    decodeLossy junk = text ∧
      ∀ path, (Encounter.document path junk).definitions matching = Markup.extract matching text

/-- Whatever bytes stand between two texts, readers of the document get past them. -/
theorem readsPast (matching : Matching) (s t : Text) (junk : Bytes) :
    ReadsPast matching s t junk where
  definitions_eq _ := congrArg (Markup.extract matching) (decodeLossy_between s t junk)
  catalog_eq files route root path catalog before after hmeets := by
    calc
      (reap files matching route root catalog).value.catalog =
          catalog.insertAll (found files matching route root) := catalog_reap root catalog
      _ = catalog.insertAll (before.flatMap (Encounter.definitions matching) ++
            (Markup.extract matching (s ++ decodeLossy junk ++ t) ++
              after.flatMap (Encounter.definitions matching))) := by
        rw [found_of_encounters hmeets, decodeLossy_between]
      _ = ((catalog.insertAll (before.flatMap (Encounter.definitions matching))).insertAll
            (Markup.extract matching (s ++ decodeLossy junk ++ t))).insertAll
              (after.flatMap (Encounter.definitions matching)) := by
        rw [Catalog.insertAll_append, Catalog.insertAll_append]
  eq_nil_iff := decodeLossy_eq_nil_iff
  of_encode text hjunk := by
    have htext : decodeLossy junk = text := by rw [hjunk, decodeLossy_encode]
    exact ⟨htext, fun _ ↦ congrArg (Markup.extract matching) htext⟩

/-- The first three bytes of a character of four. -/
def brokenOff : Bytes :=
  [0xF0, 0x9F, 0x92]

def damagedDocument : Bytes :=
  encode "<GeneDef>".toList ++ brokenOff ++ encode "<defName>Hairy</defName></GeneDef>".toList

/-- A folder whose only document is damaged. -/
def damagedTree : FileSystem where
  nodes :=
    [([], ⟨.directory, ⟨0, 0⟩⟩), (["d".toList], ⟨.directory, ⟨0, 0⟩⟩),
      (["a.xml".toList, "d".toList], ⟨.file damagedDocument, ⟨0, 0⟩⟩)]
  working := []
  now := ⟨1000000000, 0⟩

theorem encounters_damagedTree (route : Route) :
    route.encounters damagedTree (Path.ofString "d") =
      [.document (Path.ofString "d" / "a.xml") damagedDocument] := by
  have hroot : damagedTree.locateDirectory (Path.ofString "d") = .ok ["d".toList] := by
    decide
  have hnames : damagedTree.sortedNames ["d".toList] = ["a.xml".toList] := by decide +kernel
  have hcontent : damagedTree.contentAt? ["a.xml".toList, "d".toList] =
      some (.file damagedDocument) := rfl
  have hpath : damagedTree.locate (Path.ofString "d" / "a.xml") =
      .ok ["a.xml".toList, "d".toList] := by decide
  have hdocument : Encounter.ofFile damagedTree (Path.ofString "d" / "a.xml") =
      [.document (Path.ofString "d" / "a.xml") damagedDocument] :=
    Encounter.ofFile_of_locate hpath hcontent (by decide)
  cases route with
  | descent =>
    have hentry : damagedTree.descendEntry (Path.ofString "d") []
        ⟨Path.ofString "d", ["d".toList]⟩ "a.xml".toList =
          Encounter.ofFile damagedTree (Path.ofString "d" / "a.xml") := by
      unfold FileSystem.descendEntry
      dsimp only
      rw [hcontent]
      rfl
    calc
      damagedTree.descent (Path.ofString "d") =
          ["a.xml".toList].flatMap (damagedTree.descendEntry (Path.ofString "d") []
            ⟨Path.ofString "d", ["d".toList]⟩) := by
        rw [FileSystem.descent_eq hroot, FileSystem.descend_eq, hnames]
      _ = Encounter.ofFile damagedTree (Path.ofString "d" / "a.xml") := by
        rw [List.flatMap_singleton, hentry]
      _ = [.document (Path.ofString "d" / "a.xml") damagedDocument] := hdocument
  | tour =>
    calc
      damagedTree.tour (Path.ofString "d") =
          damagedTree.tourFrom [["d".toList]] [Path.ofString "d" / "a.xml"] :=
        FileSystem.tour_of_single hroot hnames
      _ = Encounter.ofFile damagedTree (Path.ofString "d" / "a.xml") ++
          damagedTree.tourFrom [["d".toList]] [] := FileSystem.tourFrom_file hpath hcontent
      _ = [.document (Path.ofString "d" / "a.xml") damagedDocument] := by
        rw [hdocument, FileSystem.tourFrom_nil, List.append_nil]

/-- The name after the damaged place is found on both routes. -/
theorem readsPast_damagedTree :
    decodeLossy brokenOff = ['\uFFFD'] ∧
      (reap damagedTree .strict .descent (Path.ofString "d") ∅).value.catalog =
        ⟨[⟨"gene".toList, ["Hairy".toList]⟩]⟩ ∧
      (reap damagedTree .strict .tour (Path.ofString "d") ∅).value.catalog =
        ⟨[⟨"gene".toList, ["Hairy".toList]⟩]⟩ := by
  have hreads := readsPast .strict "<GeneDef>".toList "<defName>Hairy</defName></GeneDef>".toList
    brokenOff
  have hcatalog (route : Route) :
      (reap damagedTree .strict route (Path.ofString "d") ∅).value.catalog =
        ⟨[⟨"gene".toList, ["Hairy".toList]⟩]⟩ := by
    rw [hreads.catalog_eq damagedTree route _ _ ∅ [] [] (encounters_damagedTree route)]
    decide +kernel
  exact ⟨by decide, hcatalog .descent, hcatalog .tour⟩

end Harvest

end DefCatalog
