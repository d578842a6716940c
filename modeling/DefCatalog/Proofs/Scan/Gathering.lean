import DefCatalog.Proofs.Catalog.WellFiled
import DefCatalog.Scan.Run

/-!
# Gathered catalogs

The keys of all kinds are in lower case, so whatever is found in documents can be filed as it is,
and the catalog that a scan gathers is well filed, whether it is filled folder by folder or merged
from what a worker sends.
-/

namespace DefCatalog

variable {files : FileSystem} {matching : Matching} {catalog : Catalog}

theorem DefKind.lower_key : ∀ kind ∈ DefKind.all, Text.lower kind.key = kind.key := by
  decide +kernel

theorem Markup.lower_kind_of_mem_extract {text : Text} {d : Definition}
    (h : d ∈ extract matching text) : Text.lower d.kind = d.kind := by
  rcases List.mem_append.mp h with htagged | hnamed
  · simp only [taggedDefinitions] at htagged
    split at htagged
    · cases htagged
    · obtain ⟨found, _, hfound⟩ := List.mem_filterMap.mp htagged
      obtain ⟨tags, htags, rfl⟩ := Option.map_eq_some_iff.mp hfound
      obtain ⟨kind, hkind, rfl⟩ := List.mem_map.mp (List.mem_of_find?_eq_some htags)
      exact DefKind.lower_key kind hkind
  · obtain ⟨kind, hkind, hmem⟩ := List.mem_flatMap.mp hnamed
    obtain ⟨name, _, rfl⟩ := List.mem_map.mp hmem
    exact DefKind.lower_key kind hkind

theorem Encounter.lower_kind_of_mem_definitions {encounter : Encounter} {d : Definition}
    (h : d ∈ encounter.definitions matching) : Text.lower d.kind = d.kind := by
  cases encounter with
  | document path content => exact Markup.lower_kind_of_mem_extract h
  | unread path reason => cases h
  | skipped reason => cases h

theorem Harvest.wellFiled_reap (h : catalog.WellFiled) (route : Route) (root : Path) :
    (reap files matching route root catalog).value.catalog.WellFiled := by
  apply h.insertAll
  intro d hd
  obtain ⟨found, hfound, hmem⟩ := List.mem_flatMap.mp hd
  obtain ⟨encounter, _, rfl⟩ := List.mem_map.mp hfound
  exact Encounter.lower_kind_of_mem_definitions hmem

namespace WorkerMessage

/-- Whether the entries of a message, if it carries any, are under keys in lower case. -/
def HasLowerKinds : WorkerMessage → Prop
  | definitions entries => ∀ entry ∈ entries, Text.lower entry.kind = entry.kind
  | _ => True

theorem hasLowerKinds_of_mem_sendFrom {total finished : Nat} {folders : List Folder}
    {message : WorkerMessage} (h : message ∈ (sendFrom files matching total finished folders).value) :
    message.HasLowerKinds := by
  induction folders generalizing finished with
  | nil =>
    obtain rfl := List.mem_singleton.mp h
    trivial
  | cons folder folders ih =>
    rcases List.mem_cons.mp h with rfl | hrest
    · intro entry hmem
      exact (Harvest.wellFiled_reap Catalog.wellFiled_empty .descent folder.path).entry_of_mem
        entry hmem |>.lower_kind
    · rcases List.mem_cons.mp hrest with rfl | hlater
      · trivial
      · exact ih hlater

theorem wellFiled_receive {endedWell : Bool} {messages : List WorkerMessage} {received : Catalog}
    (h : catalog.WellFiled) (hmessages : ∀ message ∈ messages, message.HasLowerKinds)
    (hreceive : (receive endedWell catalog messages).value = .ok received) : received.WellFiled := by
  induction messages generalizing catalog with
  | nil => cases hreceive
  | cons message messages ih =>
    have hrest := fun other hother ↦ hmessages other (List.mem_cons_of_mem _ hother)
    cases message with
    | definitions entries => exact ih (h.merge (hmessages _ List.mem_cons_self)) hrest hreceive
    | progress report => exact ih h hrest hreceive
    | complete =>
      cases endedWell with
      | false => cases hreceive
      | true =>
        cases hreceive
        exact h

end WorkerMessage

namespace Scan

theorem wellFiled_gatherFrom {route : Route} {total finished : Nat} {folders : List Folder}
    (h : catalog.WellFiled) :
    (gatherFrom files matching route total finished catalog folders).value.WellFiled := by
  induction folders generalizing finished catalog with
  | nil => exact h
  | cons folder folders ih => exact ih (Harvest.wellFiled_reap h route folder.path)

theorem wellFiled_gather {strategy : Strategy} {folders : List Folder}
    (h : (gather files matching strategy folders).value = .ok catalog) : catalog.WellFiled := by
  cases strategy with
  | worker =>
    exact WorkerMessage.wellFiled_receive Catalog.wellFiled_empty
      (fun message hmem ↦ WorkerMessage.hasLowerKinds_of_mem_sendFrom hmem) h
  | sync | cooperative =>
    cases h
    exact wellFiled_gatherFrom Catalog.wellFiled_empty

end Scan

end DefCatalog
