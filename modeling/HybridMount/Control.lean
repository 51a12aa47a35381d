import HybridMount.Listing
import HybridMount.OrderedMap

/-! Changes through the control surface of the VFS provider. A request is encoded as a whole before the
first page is sent, and the report comes from what is listed afterwards. -/

namespace HybridMount.Control

open LittleEndian (Bytes)
open Protocol (NmCommand ListedRule)

inductive ClearScope where
  | rules
  | uids
  | all
  deriving DecidableEq, Repr

inductive Mutation where
  | add (rules : List Protocol.EncodedRule) (uid : UInt32)
  | delete (paths : List Bytes) (uid : UInt32)
  | addUids (uids : List UInt32)
  | deleteUids (uids : List UInt32)
  | clear (scope : ClearScope)
  deriving DecidableEq, Repr

namespace Mutation

def name : Mutation → String
  | add _ _ => "rule.add"
  | delete _ _ => "rule.del"
  | addUids _ => "uid.add"
  | deleteUids _ => "uid.del"
  | clear .rules => "rule.clear"
  | clear .uids => "uid.clear"
  | clear .all => "clear.all"

def pages (format : RuleFormat) : Mutation → Except Error (List Bytes)
  | add rules uid => Protocol.buildAddRulePayloadsFor rules uid format
  | delete paths uid => Protocol.buildDelRulePayloadsFor paths uid format
  | addUids uids => uids.mapM fun uid => Protocol.buildPayload .addUid uid []
  | deleteUids uids => uids.mapM fun uid => Protocol.buildPayload .delUid uid []
  | clear scope =>
    let cmd : NmCommand := match scope with
      | .rules => .clearRules
      | .uids => .clearUids
      | .all => .clearAll
    (Protocol.buildPayload cmd 0 []).map fun page => [page]

def checkResponse (response : Bytes) : Mutation → Except Error Unit
  | add _ _ => Protocol.ensureConsumed response
  | delete _ _ | deleteUids _ => Protocol.ensureStatusAllowEnoent response
  | addUids _ => Protocol.ensureStatusAllowEexist response
  | clear _ => Protocol.ensureStatus response

/-- How a report names the page at an index. -/
def item (index : Nat) : Mutation → String
  | addUids uids | deleteUids uids => "UID " ++ ((uids[index]?).map toString).getD ""
  | _ => "batch " ++ toString (index + 1)

end Mutation

structure VerifiedItem where
  target : String
  uid : Option UInt32
  confirmed : Bool
  deriving DecidableEq, Repr

structure MutationReport where
  operation : String
  ok : Bool
  results : List VerifiedItem
  error : Option String
  readbackError : Option String
  deriving DecidableEq, Repr

/-- What is behind the keyring, and the requests that were sent there. -/
structure Session (σ : Type) where
  kernel : σ
  requests : List Bytes

section

variable {σ α : Type} (exchange : Bytes → σ → Except Error Bytes × σ)

def send (request : Bytes) (s : Session σ) : Except Error Bytes × Session σ :=
  let reply := exchange request s.kernel
  (reply.1, ⟨reply.2, s.requests ++ [request]⟩)

/-- One listed page: its items with the next cursor, or nothing at the end of the table. -/
def nextPage (parse : Bytes → Except Error (List α × UInt32)) (payload : Bytes) :
    Except Error (Option (List α × UInt32)) := do
  let (batch, next) ← parse payload
  let finished ← if batch.isEmpty then (Protocol.readDataSize payload).map (· == 0) else pure false
  if finished then return none
  else return some (batch, next)

def listFrom (command : NmCommand) (parse : Bytes → Except Error (List α × UInt32)) (cursor : UInt32)
    (all : List α)
    (s : Session σ) : Except Error (List α) × Session σ :=
  match Protocol.buildListPayload command cursor with
  | .error err => (.error err, s)
  | .ok request =>
    let reply := send exchange request s
    match reply.1.bind (nextPage parse) with
    | .error err => (.error err, reply.2)
    | .ok none => (.ok all, reply.2)
    | .ok (some (batch, next)) =>
      if _h : next ≤ cursor then
        (.error (.vfsProtocol ("kernel returned cursor " ++ toString next ++ " for " ++
          toString batch.length ++
          " records requested from " ++ toString cursor)), reply.2)
      else listFrom command parse next (all ++ batch) reply.2
  termination_by 2 ^ 32 - cursor.toNat
  decreasing_by
    have hlt : cursor.toNat < next.toNat := by simpa [UInt32.le_iff_toNat_le] using _h
    have hbound := next.toNat_lt
    omega

def listRules (format : RuleFormat) (s : Session σ) : Except Error (List ListedRule) × Session σ :=
  listFrom exchange .getList (fun page => Vfs.withCursor (Protocol.parseListFor page format)) 0 [] s

def listUids (s : Session σ) : Except Error (List UInt32) × Session σ :=
  listFrom exchange .getUids (fun page => Vfs.withCursor (Protocol.parseUids page)) 0 [] s

/-- The pages in order, up to the first that fails or is not accepted. -/
def sendPages (mutation : Mutation) : List Bytes → Nat → Session σ → Option String × Session σ
  | [], _, s => (none, s)
  | page :: rest, index, s =>
    let reply := send exchange page s
    match reply.1.bind fun response => mutation.checkResponse response with
    | .error err =>
      (some (mutation.name ++ " " ++ mutation.item index ++ ": " ++ err.message ++
        "; earlier records may have taken effect"), reply.2)
    | .ok () => sendPages mutation rest (index + 1) reply.2

end

/-- A failed readback is kept for the report. -/
def noteReadback {α : Type} (listed : Except Error α) : List String × Option α :=
  match listed with
  | .ok rows => ([], some rows)
  | .error err => ([err.message], none)

/-- The last rule that was asked for at each path. -/
def expectedRules (rules : List Protocol.EncodedRule) : List (Bytes × Protocol.EncodedRule) :=
  rules.foldl (fun m rule => OrderedMap.insert compare rule.virtualPath rule m) []

def confirmsAddition (uid : UInt32) (path : Bytes) (rule : Protocol.EncodedRule) (row : ListedRule) : Bool :=
  row.uid == uid && utf8 row.virtualPath == path && utf8 row.realPath == rule.realPath &&
    row.flags &&& (FLAG_WHITEOUT ||| FLAG_OPAQUE) == rule.flags &&
    (rule.flags &&& FLAG_OPAQUE == 0 || row.flags &&& FLAG_VIRTUAL_DIR != 0)

def contradictsDeletion (uid : UInt32) (path : Bytes) (row : ListedRule) : Bool :=
  row.uid == uid && utf8 row.virtualPath == path && !isDerivedParent row.flags row.realPath

/-- The items of the report with the failures of the readback, and the session behind it. -/
def verify {σ : Type} (exchange : Bytes → σ → Except Error Bytes × σ) (format : RuleFormat) (s : Session σ) :
    Mutation → (List String × List VerifiedItem) × Session σ
  | .add rules uid =>
    let read := listRules exchange format s
    let (errors, listed) := noteReadback read.1
    ((errors, (expectedRules rules).map fun e =>
      ⟨fromUtf8Lossy e.1, some uid, listed.any fun rows => rows.any (confirmsAddition uid e.1 e.2)⟩), read.2)
  | .delete paths uid =>
    let read := listRules exchange format s
    let (errors, listed) := noteReadback read.1
    ((errors, paths.map fun path =>
      ⟨fromUtf8Lossy path, some uid, listed.any fun rows => !rows.any (contradictsDeletion uid path)⟩), read.2)
  | .addUids uids =>
    let read := listUids exchange s
    let (errors, listed) := noteReadback read.1
    ((errors, uids.map fun uid => ⟨toString uid, some uid, listed.any fun rows => rows.contains uid⟩), read.2)
  | .deleteUids uids =>
    let read := listUids exchange s
    let (errors, listed) := noteReadback read.1
    ((errors, uids.map fun uid => ⟨toString uid, some uid, listed.any fun rows => !rows.contains uid⟩), read.2)
  | .clear .rules =>
    let read := listRules exchange format s
    let (errors, listed) := noteReadback read.1
    ((errors, [⟨"rules", none, listed.any List.isEmpty⟩]), read.2)
  | .clear .uids =>
    let read := listUids exchange s
    let (errors, listed) := noteReadback read.1
    ((errors, [⟨"uids", none, listed.any List.isEmpty⟩]), read.2)
  | .clear .all =>
    let rulesRead := listRules exchange format s
    let uidsRead := listUids exchange rulesRead.2
    let (ruleErrors, rules) := noteReadback rulesRead.1
    let (uidErrors, uids) := noteReadback uidsRead.1
    ((ruleErrors ++ uidErrors, [⟨"rules", none, rules.any List.isEmpty⟩,
      ⟨"uids", none, uids.any List.isEmpty⟩]), uidsRead.2)

def mutate {σ : Type} (exchange : Bytes → σ → Except Error Bytes × σ) (format : RuleFormat)
    (mutation : Mutation) (s : Session σ) :
    Except Error MutationReport × Session σ :=
  match mutation.pages format with
  | .error err => (.error err, s)
  | .ok pages =>
    let sent := sendPages exchange mutation pages 0 s
    let checked := verify exchange format sent.2 mutation
    let readbackError := if checked.1.1 = [] then none else some (String.intercalate "; " checked.1.1)
    (.ok { operation := mutation.name
           ok := sent.1.isNone && readbackError.isNone && checked.1.2.all VerifiedItem.confirmed
           results := checked.1.2
           error := sent.1
           readbackError := readbackError }, checked.2)

end HybridMount.Control
