import DefCatalog.Proofs.Scan.Reports
import Mathlib.Logic.Relation

/-!
# Exchanges come to an end

Whatever the order in which a worker sends and its receiver takes, and wherever the worker stops, an
exchange ends after finitely many steps. If the worker has sent everything and has ended well, the
scan is the one that is done in one go, with the same reports. Otherwise it fails, nothing is
written, and the reports are the first ones of that scan. The invariant says what has become of each
message: it is taken, in the channel or not sent yet, in the order in which the worker made them.
-/

namespace DefCatalog

open Relation

variable {files : FileSystem} {matching : Matching} {folders : List Folder}
  {root : Path} {cache : Option CacheFile}

namespace Exchange

variable {exchange next : Exchange} {body taken : List WorkerMessage}

/-- A bound on the number of steps that are left. -/
def size (exchange : Exchange) : Nat :=
  2 * exchange.unsent.length + exchange.channel.length +
    (match exchange.ended with
    | none => 1
    | some _ => 0) +
    match exchange.reception with
    | .taking => 2
    | .waiting _ => 1
    | .done _ => 0

theorem Step.size_lt (h : Step exchange next) : next.size < exchange.size := by
  cases h with
  | send hended htaking hunsent =>
    simp only [size, hunsent, List.length_cons, List.length_append, List.length_nil]
    omega
  | stop well hended => simp [size, hended]
  | @take message rest htaking hchannel =>
    cases message with
    | complete =>
      simp only [size, Exchange.take, htaking, hchannel, List.length_cons]
      omega
    | _ => simp [size, Exchange.take, htaking, hchannel]
  | hangUp htaking hchannel hended => simp [size, htaking]
  | join hwaiting hended => simp [size, hwaiting]

/-- There is no run without an end. -/
theorem not_forall_step (run : Nat → Exchange) : ¬∀ n, Step (run n) (run (n + 1)) := by
  intro hsteps
  have hsize (n : Nat) : (run n).size + n ≤ (run 0).size := by
    induction n with
    | zero => exact Nat.le_refl _
    | succ n ih =>
      have hlt := (hsteps n).size_lt
      omega
  have hbound := hsize ((run 0).size + 1)
  omega

theorem exists_step (h : ∀ outcome, exchange.reception ≠ .done outcome) :
    ∃ next, Step exchange next := by
  cases hended : exchange.ended with
  | none => exact ⟨_, .stop true hended⟩
  | some well =>
    cases hreception : exchange.reception with
    | taking =>
      cases hchannel : exchange.channel with
      | nil => exact ⟨_, .hangUp hreception hchannel (by simp [hended])⟩
      | cons message rest => exact ⟨_, .take hreception hchannel⟩
    | waiting complete => exact ⟨_, .join hreception hended⟩
    | done outcome => exact absurd hreception (h outcome)

theorem exists_run_done (exchange : Exchange) {well : Bool} (hended : exchange.ended = some well) :
    ∃ last outcome, ReflTransGen Step exchange last ∧ last.reception = .done outcome ∧
      last.ended = some well ∧ last.unsent = exchange.unsent := by
  generalize hsize : exchange.size = size
  induction size using Nat.strongRecOn generalizing exchange with
  | ind size ih =>
    by_cases hdone : ∃ outcome, exchange.reception = .done outcome
    · obtain ⟨outcome, houtcome⟩ := hdone
      exact ⟨exchange, outcome, .refl, houtcome, hended, rfl⟩
    · obtain ⟨next, hstep⟩ := exists_step (not_exists.mp hdone)
      have hkept : next.ended = some well ∧ next.unsent = exchange.unsent := by
        cases hstep with
        | send hnone | stop _ hnone => simp [hended] at hnone
        | @take message => cases message <;> exact ⟨hended, rfl⟩
        | hangUp | join => exact ⟨hended, rfl⟩
      obtain ⟨last, outcome, hrun, hlast⟩ := ih next.size (hsize ▸ hstep.size_lt) next hkept.1 rfl
      rw [hkept.2] at hlast
      exact ⟨last, outcome, hrun.head hstep, hlast⟩

/-- A worker that nothing stops can send everything. -/
theorem exists_run_sent (exchange : Exchange) (hended : exchange.ended = none)
    (htaking : exchange.reception = .taking) :
    ∃ sent, ReflTransGen Step exchange sent ∧ sent.ended = none ∧ sent.unsent = [] := by
  generalize hunsent : exchange.unsent = unsent
  induction unsent generalizing exchange with
  | nil => exact ⟨exchange, .refl, hended, hunsent⟩
  | cons message rest ih =>
    let next := { exchange with unsent := rest, channel := exchange.channel ++ [message] }
    obtain ⟨sent, hrun, hsent⟩ := ih next hended htaking rfl
    exact ⟨sent, hrun.head (.send hended htaking hunsent), hsent⟩

/-- A worker that nothing stops can send everything and end well. -/
theorem exists_full_run (files : FileSystem) (matching : Matching) (folders : List Folder) :
    ∃ last outcome, ReflTransGen Step (start files matching folders) last ∧
      last.reception = .done outcome ∧ last.ended = some true ∧ last.unsent = [] := by
  obtain ⟨sent, hsend, hended, hunsent⟩ := exists_run_sent (start files matching folders) rfl rfl
  obtain ⟨last, outcome, hrun, hdone, hwell, hrest⟩ :=
    exists_run_done { sent with ended := some true } rfl
  exact ⟨last, outcome, (hsend.tail (.stop true hended)).trans hrun, hdone, hwell,
    hrest.trans hunsent⟩

/-- Whether the receiver is as far as the messages that it has taken allow. -/
def Fits (taken : List WorkerMessage) (exchange : Exchange) : Prop :=
  let cutOff := .complete ∉ taken ∧ exchange.channel = [] ∧ exchange.ended ≠ none
  match exchange.reception with
  | .taking => .complete ∉ taken
  | .waiting true => .complete ∈ taken
  | .waiting false => cutOff
  | .done (.ok catalog) =>
    .complete ∈ taken ∧ exchange.ended = some true ∧ catalog = exchange.catalog
  | .done (.error error) => error = .workerStopped ∧ (exchange.ended = some false ∨ cutOff)

/-- What holds of an exchange in which the worker sends `body` and then the last message. -/
structure Accounts (body taken : List WorkerMessage) (exchange : Exchange) : Prop where
  accounted : taken ++ (exchange.channel ++ exchange.unsent) = body ++ [.complete]
  catalog_eq : exchange.catalog = WorkerMessage.mergeInto ∅ taken
  reported_eq : exchange.reported = taken.filterMap WorkerMessage.report?
  fits : Fits taken exchange

/-- A message is taken at the end of those that were taken before. -/
theorem Accounts.take {message : WorkerMessage} {rest : List WorkerMessage}
    (h : Accounts body taken exchange) (htaking : exchange.reception = .taking)
    (hchannel : exchange.channel = message :: rest) :
    Accounts body (taken ++ [message]) (exchange.take message rest) := by
  have haccounted : taken ++ [message] ++ (rest ++ exchange.unsent) = body ++ [.complete] := by
    rw [← h.accounted, hchannel, List.append_assoc]
    rfl
  have hfits := h.fits
  simp only [Fits, htaking] at hfits
  cases message with
  | definitions entries =>
    refine ⟨haccounted, ?_, ?_, ?_⟩
    · rw [WorkerMessage.mergeInto_append, ← h.catalog_eq]
      rfl
    · rw [List.filterMap_append, ← h.reported_eq]
      exact (List.append_nil _).symm
    · simp [Fits, Exchange.take, htaking, hfits]
  | progress report =>
    refine ⟨haccounted, ?_, ?_, ?_⟩
    · rw [WorkerMessage.mergeInto_append, ← h.catalog_eq]
      rfl
    · rw [List.filterMap_append, ← h.reported_eq]
      rfl
    · simp [Fits, Exchange.take, htaking, hfits]
  | complete =>
    refine ⟨haccounted, ?_, ?_, ?_⟩
    · rw [WorkerMessage.mergeInto_append, ← h.catalog_eq]
      rfl
    · rw [List.filterMap_append, ← h.reported_eq]
      exact (List.append_nil _).symm
    · simp [Fits, Exchange.take]

/-- No step loses, repeats or reorders a message. -/
theorem Accounts.step (h : Accounts body taken exchange) (hstep : Step exchange next) :
    ∃ taken', Accounts body taken' next := by
  have hfits := h.fits
  cases hstep with
  | @send message rest hended htaking hunsent =>
    refine ⟨taken, ?_, h.catalog_eq, h.reported_eq, ?_⟩
    · rw [← h.accounted, hunsent, List.append_assoc exchange.channel]
      rfl
    · simp only [Fits, htaking] at hfits ⊢
      exact hfits
  | stop well hended =>
    refine ⟨taken, h.accounted, h.catalog_eq, h.reported_eq, ?_⟩
    simp only [Fits, hended] at hfits ⊢
    split at hfits <;> simp_all
  | take htaking hchannel => exact ⟨_, h.take htaking hchannel⟩
  | hangUp htaking hchannel hended =>
    refine ⟨taken, h.accounted, h.catalog_eq, h.reported_eq, ?_⟩
    simp only [Fits, htaking] at hfits ⊢
    exact ⟨hfits, hchannel, hended⟩
  | @join complete well hwaiting hended =>
    refine ⟨taken, h.accounted, h.catalog_eq, h.reported_eq, ?_⟩
    simp only [Fits, hwaiting] at hfits ⊢
    cases complete <;> cases well <;> simp_all [outcome]

/-- Along every run each message stays accounted for. -/
theorem Accounts.run (h : Accounts body taken exchange) (hrun : ReflTransGen Step exchange next) :
    ∃ taken', Accounts body taken' next := by
  induction hrun with
  | refl => exact ⟨taken, h⟩
  | tail _ hstep ih =>
    obtain ⟨taken', hmiddle⟩ := ih
    exact hmiddle.step hstep

theorem Accounts.start (hsend : (WorkerMessage.send files matching folders).value =
    body ++ [.complete]) : Accounts body [] (start files matching folders) where
  accounted := hsend
  catalog_eq := rfl
  reported_eq := rfl
  fits := List.not_mem_nil

theorem Accounts.all_taken (h : Accounts body taken exchange) (hbody : .complete ∉ body)
    (hcomplete : .complete ∈ taken) :
    taken = body ++ [.complete] ∧ exchange.channel = [] ∧ exchange.unsent = [] := by
  have hprefix : taken <+: body ++ [.complete] := ⟨_, h.accounted⟩
  have htaken : taken = body ++ [.complete] :=
    (List.prefix_concat_iff.mp hprefix).resolve_right
      fun hshort ↦ hbody (hshort.subset hcomplete)
  have hrest : exchange.channel ++ exchange.unsent = [] := by
    have haccounted := h.accounted
    rw [htaken] at haccounted
    exact List.append_right_eq_self.mp haccounted
  exact ⟨htaken, List.append_eq_nil_iff.mp hrest⟩

theorem Accounts.unsent_ne_nil (h : Accounts body taken exchange) (hcomplete : .complete ∉ taken)
    (hchannel : exchange.channel = []) : exchange.unsent ≠ [] := by
  intro hunsent
  have haccounted := h.accounted
  rw [hchannel, hunsent, List.append_nil, List.append_nil] at haccounted
  apply hcomplete
  rw [haccounted]
  exact List.mem_append_right _ (List.mem_singleton.mpr rfl)

theorem Accounts.reported_prefix (h : Accounts body taken exchange) :
    exchange.reported <+: body.filterMap WorkerMessage.report? := by
  have hprefix : taken <+: body ++ [.complete] := ⟨_, h.accounted⟩
  have hmap := hprefix.filterMap WorkerMessage.report?
  rw [List.filterMap_append] at hmap
  rw [h.reported_eq]
  exact (List.append_nil (body.filterMap WorkerMessage.report?)) ▸ hmap

/-- What the receiver has in the end is what a scan in one go gathers, if it has anything. -/
theorem outcome_of_run {outcome : Except ScanError Catalog}
    (hrun : ReflTransGen Step (start files matching folders) exchange)
    (hdone : exchange.reception = .done outcome) :
    outcome = .error .workerStopped ∨ outcome = (Scan.gather files matching .sync folders).value := by
  obtain ⟨body, hsend, hbody, hmerge, _⟩ :=
    WorkerMessage.sendFrom_eq files matching folders.length 0 ∅ folders
  obtain ⟨taken, haccounts⟩ := (Accounts.start hsend).run hrun
  have hfits := haccounts.fits
  simp only [Fits, hdone] at hfits
  cases outcome with
  | error error =>
    rw [hfits.1]
    exact Or.inl rfl
  | ok catalog =>
    obtain ⟨hcomplete, _, rfl⟩ := hfits
    have htaken := (haccounts.all_taken hbody hcomplete).1
    have hcatalog : exchange.catalog = WorkerMessage.mergeInto ∅ body := by
      rw [haccounts.catalog_eq, htaken, WorkerMessage.mergeInto_append]
      rfl
    rw [hcatalog, hmerge]
    exact Or.inr rfl

/-- However a worker and its receiver take turns, and wherever the worker stops, they come to an
end. If something was not sent or the worker has not ended well, the scan fails, nothing is written,
and the reports are the first ones of a scan that is done in one go. Otherwise the scan is that
one. -/
theorem conclude_eq_sync_or_stopped (cache : Option CacheFile)
    (hprepare : (Scan.prepare files root).value = .ok folders)
    (hrun : ReflTransGen Step (start files matching folders) exchange) :
    let full := Scan.run files root cache matching .sync
    (¬∃ run : Nat → Exchange, run 0 = exchange ∧ ∀ n, Step (run n) (run (n + 1))) ∧
      match exchange.reception with
      | .done outcome =>
        let answer := (Scan.conclude files root cache folders.length outcome).value
        ((exchange.unsent ≠ [] ∨ exchange.ended = some false) ∧
            answer = (files, .error .workerStopped) ∧ exchange.reported <+: full.progress) ∨
          ((exchange.unsent = [] ∧ exchange.ended = some true) ∧
            (∃ scanned, answer.2 = .ok scanned ∧ scanned.folders = folders.length) ∧
            answer = full.value ∧ exchange.reported = full.progress)
      | _ => ∃ next, Step exchange next := by
  intro full
  refine ⟨fun ⟨run, _, hsteps⟩ ↦ not_forall_step run hsteps, ?_⟩
  obtain ⟨body, hsend, hbody, hmerge, hreports⟩ :=
    WorkerMessage.sendFrom_eq files matching folders.length 0 ∅ folders
  obtain ⟨taken, haccounts⟩ := (Accounts.start hsend).run hrun
  obtain ⟨hvalue, hprogress⟩ :=
    Scan.run_of_prepare cache matching .sync hprepare
  have hfits := haccounts.fits
  cases hreception : exchange.reception with
  | taking => exact exists_step fun outcome heq ↦ by simp [hreception] at heq
  | waiting complete => exact exists_step fun outcome heq ↦ by simp [hreception] at heq
  | done outcome =>
    cases outcome with
    | error error =>
      simp only [Fits, hreception] at hfits
      obtain ⟨rfl, hcause⟩ := hfits
      refine Or.inl ⟨?_, rfl, ?_⟩
      · cases hcause with
        | inl hbadly => exact Or.inr hbadly
        | inr hcut => exact Or.inl (haccounts.unsent_ne_nil hcut.1 hcut.2.1)
      · rw [hprogress, ← hreports]
        exact haccounts.reported_prefix
    | ok catalog =>
      simp only [Fits, hreception] at hfits
      obtain ⟨hcomplete, hwell, rfl⟩ := hfits
      obtain ⟨htaken, _, hunsent⟩ := haccounts.all_taken hbody hcomplete
      have hcatalog : exchange.catalog = WorkerMessage.mergeInto ∅ body := by
        rw [haccounts.catalog_eq, htaken, WorkerMessage.mergeInto_append]
        rfl
      have hgather : (Scan.gather files matching .sync folders).value = .ok exchange.catalog := by
        rw [hcatalog, hmerge]
        rfl
      refine Or.inr ⟨⟨hunsent, hwell⟩, ⟨_, rfl, rfl⟩, ?_, ?_⟩
      · rw [hvalue, hgather]
      · calc
          exchange.reported =
              (body ++ [WorkerMessage.complete]).filterMap WorkerMessage.report? := by
            rw [haccounts.reported_eq, htaken]
          _ = body.filterMap WorkerMessage.report? := by
            rw [List.filterMap_append]
            exact List.append_nil _
          _ = full.progress := by rw [hreports, ← hprogress]

/-- An install root with two folders, in which the same names are found in another order. -/
def sharedTree : FileSystem where
  nodes :=
    [([], ⟨.directory, ⟨0, 0⟩⟩), (["i".toList], ⟨.directory, ⟨0, 0⟩⟩),
      (["Data".toList, "i".toList], ⟨.directory, ⟨0, 0⟩⟩),
      (["Core".toList, "Data".toList, "i".toList], ⟨.directory, ⟨0, 0⟩⟩),
      (["Defs".toList, "Core".toList, "Data".toList, "i".toList], ⟨.directory, ⟨0, 0⟩⟩),
      (["a.xml".toList, "Defs".toList, "Core".toList, "Data".toList, "i".toList],
        ⟨.file (Utf8.encode "<ThingDef Name=\"P\"></ThingDef><JobDef Name=\"Q\"></JobDef>".toList),
          ⟨0, 0⟩⟩),
      (["Mods".toList, "i".toList], ⟨.directory, ⟨0, 0⟩⟩),
      (["M".toList, "Mods".toList, "i".toList], ⟨.directory, ⟨0, 0⟩⟩),
      (["Defs".toList, "M".toList, "Mods".toList, "i".toList], ⟨.directory, ⟨0, 0⟩⟩),
      (["b.xml".toList, "Defs".toList, "M".toList, "Mods".toList, "i".toList],
        ⟨.file (Utf8.encode "<JobDef Name=\"Q\"></JobDef><ThingDef Name=\"R\"></ThingDef>".toList),
          ⟨0, 0⟩⟩)]
  working := []
  now := ⟨1000000000, 0⟩

def sharedFolders : List Folder :=
  [⟨Path.ofString "i/Data/Core/Defs", "Data/Core".toList⟩,
    ⟨Path.ofString "i/Mods/M/Defs", "M".toList⟩]

/-- A worker goes through both folders and nothing stops it. -/
theorem conclude_eq_sync_sharedTree :
    (Scan.prepare sharedTree (Path.ofString "i")).value = .ok sharedFolders ∧
      ∃ last outcome, ReflTransGen Step (start sharedTree .loose sharedFolders) last ∧
        last.reception = .done outcome ∧
        (Scan.conclude sharedTree (Path.ofString "i") none 2 outcome).value =
          (Scan.run sharedTree (Path.ofString "i") none .loose .sync).value ∧
        last.reported = (Scan.run sharedTree (Path.ofString "i") none .loose .sync).progress := by
  have hprepare : (Scan.prepare sharedTree (Path.ofString "i")).value = .ok sharedFolders := by
    decide +kernel
  obtain ⟨last, outcome, hrun, hdone, hwell, hunsent⟩ :=
    exists_full_run sharedTree .loose sharedFolders
  have hend := (conclude_eq_sync_or_stopped none hprepare hrun).2
  rw [hdone] at hend
  cases hend with
  | inl hstopped => simp [hunsent, hwell] at hstopped
  | inr hsync => exact ⟨hprepare, last, outcome, hrun, hdone, hsync.2.2.1, hsync.2.2.2⟩

end Exchange

end DefCatalog
