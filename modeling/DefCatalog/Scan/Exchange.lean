import DefCatalog.Scan.Run

/-!
# Exchanges

A worker and the receiver of its messages run side by side. What the worker sends waits in a
channel, oldest first, until the receiver takes it. The worker may end at any moment: because
everything is sent, because nothing can be sent any more, or because it breaks down. The receiver
takes messages until it has the last one, or until the worker has ended and nothing waits; then it
waits for the worker to end.
-/

namespace DefCatalog

/-- How far the receiver has come. -/
inductive Reception where
  /-- It takes messages. -/
  | taking
  /-- It takes no more messages and waits for the worker to end. The last message has come, or it
  has not. -/
  | waiting (complete : Bool)
  | done (outcome : Except ScanError Catalog)

/-- The state of a worker, its channel and its receiver. -/
structure Exchange where
  /-- What the worker has still to send. -/
  unsent : List WorkerMessage
  /-- Whether the worker has ended well, once it has ended. -/
  ended : Option Bool
  /-- What has been sent and not been taken, oldest first. -/
  channel : List WorkerMessage
  /-- What the receiver has merged. -/
  catalog : Catalog
  /-- The progress that the receiver has reported, oldest first. -/
  reported : List Progress
  reception : Reception

namespace Exchange

/-- The worker and its receiver at the beginning. -/
def start (files : FileSystem) (matching : Matching) (folders : List Folder) : Exchange where
  unsent := (WorkerMessage.send files matching folders).value
  ended := none
  channel := []
  catalog := ∅
  reported := []
  reception := .taking

/-- The exchange after the receiver has taken a message, with what is left in the channel. -/
def take (exchange : Exchange) (message : WorkerMessage) (rest : List WorkerMessage) : Exchange :=
  match message with
  | .definitions entries =>
    { exchange with channel := rest, catalog := exchange.catalog.merge entries }
  | .progress report => { exchange with channel := rest, reported := exchange.reported ++ [report] }
  | .complete => { exchange with channel := rest, reception := .waiting true }

/-- What the receiver has in the end. -/
def outcome (catalog : Catalog) (complete endedWell : Bool) : Except ScanError Catalog :=
  if complete && endedWell then .ok catalog else .error .workerStopped

/-- What may happen next. -/
inductive Step : Exchange → Exchange → Prop where
  /-- The worker sends its next message. -/
  | send {exchange : Exchange} {message : WorkerMessage} {rest : List WorkerMessage}
      (hended : exchange.ended = none) (htaking : exchange.reception = .taking)
      (hunsent : exchange.unsent = message :: rest) :
      Step exchange { exchange with unsent := rest, channel := exchange.channel ++ [message] }
  /-- The worker ends. -/
  | stop {exchange : Exchange} (well : Bool) (hended : exchange.ended = none) :
      Step exchange { exchange with ended := some well }
  /-- The receiver takes the oldest message. -/
  | take {exchange : Exchange} {message : WorkerMessage} {rest : List WorkerMessage}
      (htaking : exchange.reception = .taking) (hchannel : exchange.channel = message :: rest) :
      Step exchange (exchange.take message rest)
  /-- The receiver finds that nothing more can come. -/
  | hangUp {exchange : Exchange} (htaking : exchange.reception = .taking)
      (hchannel : exchange.channel = []) (hended : exchange.ended ≠ none) :
      Step exchange { exchange with reception := .waiting false }
  /-- The receiver learns how the worker has ended. -/
  | join {exchange : Exchange} {complete well : Bool}
      (hwaiting : exchange.reception = .waiting complete) (hended : exchange.ended = some well) :
      Step exchange
        { exchange with reception := .done (outcome exchange.catalog complete well) }

end Exchange

/-- What comes of a scan when its catalog is there or cannot be had. -/
def Scan.conclude (files : FileSystem) (root : Path) (cache : Option CacheFile) (folders : Nat) :
    Except ScanError Catalog → Noted (FileSystem × Except ScanError Scanned)
  | .error error => return (files, .error error)
  | .ok catalog => do
    Noted.tell (summary catalog folders)
    let (after, saveError) ← keep files root cache catalog
    return (after, .ok ⟨catalog, folders, saveError⟩)

end DefCatalog
