import DefCatalog.Text.Basic

/-!
# Definition kinds

The element tags that introduce a definition, each with the key under which its names are filed.
The table is ordered: where a name could belong to several open elements, the first kind wins.
-/

namespace DefCatalog

/-- A kind of definition: the tag of its element and the key it is filed under. -/
structure DefKind where
  tag : Text
  key : Text
  tag_ne_nil : tag ≠ [] := by decide
  /-- A tag is spelled with letters, so no mark of the markup can be part of it. -/
  tag_letters : tag.all Char.isAlpha = true := by decide
deriving DecidableEq, Repr

namespace DefKind

/-- The recognized kinds, first choice first. -/
def all : List DefKind :=
  [{ tag := "HediffDef".toList, key := "hediff".toList },
   { tag := "ThingDef".toList, key := "thing".toList },
   { tag := "ResearchProjectDef".toList, key := "research".toList },
   { tag := "TraitDef".toList, key := "trait".toList },
   { tag := "RecipeDef".toList, key := "recipe".toList },
   { tag := "JobDef".toList, key := "job".toList },
   { tag := "WorkGiverDef".toList, key := "workgiver".toList },
   { tag := "ThoughtDef".toList, key := "thought".toList },
   { tag := "BodyPartDef".toList, key := "bodypart".toList },
   { tag := "BiomeDef".toList, key := "biome".toList },
   { tag := "FactionDef".toList, key := "faction".toList },
   { tag := "PawnKindDef".toList, key := "pawnkind".toList },
   { tag := "WorldObjectDef".toList, key := "worldobject".toList },
   { tag := "AbilityDef".toList, key := "ability".toList },
   { tag := "GeneDef".toList, key := "gene".toList },
   { tag := "MentalStateDef".toList, key := "mental".toList },
   { tag := "StatDef".toList, key := "stat".toList },
   { tag := "DamageDef".toList, key := "damage".toList },
   { tag := "EffecterDef".toList, key := "effecter".toList }]

/-- The key of the kind with exactly this tag. -/
def keyOfTag? (tag : Text) : Option Text :=
  (all.find? (·.tag == tag)).map DefKind.key

theorem nodup_tags : (all.map DefKind.tag).Nodup := by decide

theorem nodup_keys : (all.map DefKind.key).Nodup := by decide

theorem not_mem_tag (kind : DefKind) {c : Char} (h : c.isAlpha = false) : c ∉ kind.tag := by
  intro hmem
  have hletter := List.all_eq_true.mp kind.tag_letters c hmem
  rw [h] at hletter
  cases hletter

end DefKind

/-- A name found in a document, with the key of its kind. -/
structure Definition where
  kind : Text
  name : Text
deriving DecidableEq, Repr

end DefCatalog
