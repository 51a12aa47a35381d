import HybridMount.Boot
import HybridMount.LittleEndian

/-! The wire protocol of the VFS provider: one page for each request, holding a
header and packed records. -/

namespace HybridMount

open LittleEndian

/-- The bytes of a string in the encoding of the wire. -/
def utf8 (text : String) : Bytes := text.toUTF8.data.toList

/-- Length of the sequence that a lead byte announces, zero for no lead byte. -/
def utf8Width (lead : UInt8) : Nat :=
  if lead < 0x80 then 1
  else if 0xC2 ≤ lead ∧ lead ≤ 0xDF then 2
  else if 0xE0 ≤ lead ∧ lead ≤ 0xEF then 3
  else if 0xF0 ≤ lead ∧ lead ≤ 0xF4 then 4
  else 0

def admitsSecond (lead second : UInt8) : Bool :=
  let low := if lead = 0xE0 then 0xA0 else if lead = 0xF0 then 0x90 else 0x80
  let high := if lead = 0xED then 0x9F else if lead = 0xF4 then 0x8F else 0xBF
  low ≤ second ∧ second ≤ high

/-- How many bytes after the lead byte continue the sequence that it announces. -/
def continuation (lead : UInt8) (rest : Bytes) : Nat :=
  match rest.take (utf8Width lead - 1) with
  | [] => 0
  | second :: more =>
    if admitsSecond lead second then 1 + (more.takeWhile fun b => 0x80 ≤ b ∧ b ≤ 0xBF).length else 0

def scalar (lead : UInt8) (more : Bytes) : Nat :=
  more.foldl (fun acc b => acc * 64 + (b.toNat - 0x80)) (lead.toNat % 2 ^ (8 - utf8Width lead - 1))

/-- Every maximal ill-formed sequence becomes one replacement character. -/
def lossyChars : Bytes → List Char
  | [] => []
  | lead :: rest =>
    let count := continuation lead rest
    let char := if lead < 0x80 then Char.ofNat lead.toNat
      else if utf8Width lead = count + 1 then Char.ofNat (scalar lead (rest.take count)) else '\uFFFD'
    char :: lossyChars (rest.drop count)
  termination_by bytes => bytes.length
  decreasing_by simp only [List.length_drop, List.length_cons]; omega

def fromUtf8Lossy (bytes : Bytes) : String :=
  match String.fromUTF8? ⟨bytes.toArray⟩ with
  | some text => text
  | none => String.ofList (lossyChars bytes)

namespace Protocol

/-- The number of the request page's magic, which the kernel also uses as a hash seed. -/
def MAGIC : Nat := 0x4859425249444D4F

def PAYLOAD_LEN : Nat := 4096

/-- A uid and a path length. -/
def DEL_HEADER_LEN : Nat := 6

def KERNEL_ENOENT : Int := -2

def KERNEL_EEXIST : Int := -17

inductive NmCommand where
  | getVersion
  | addRule
  | delRule
  | addUid
  | delUid
  | clearAll
  | clearRules
  | clearUids
  | getList
  | getUids
  deriving DecidableEq, Repr

def NmCommand.code : NmCommand → Nat
  | getVersion => 1
  | addRule => 2
  | delRule => 3
  | addUid => 4
  | delUid => 5
  | clearAll => 6
  | clearRules => 7
  | clearUids => 8
  | getList => 9
  | getUids => 10

/-- A rule with its paths as they go over the wire. -/
structure EncodedRule where
  flags : UInt32
  virtualPath : Bytes
  realPath : Bytes
  deriving DecidableEq, Repr

def EncodedRule.recordLen (rule : EncodedRule) : Nat :=
  RULE_HEADER_LEN + rule.virtualPath.length + rule.realPath.length

def writeUidRange (format : RuleFormat) (uid : UInt32) : Bytes :=
  if format = .nomount22 then encode 4 uid.toNat ++ List.replicate 8 0 else []

def EncodedRule.writeRecord (uid : UInt32) (format : RuleFormat) (rule : EncodedRule) : Bytes :=
  encode 4 rule.flags.toNat ++ (encode 4 uid.toNat ++ (writeUidRange format uid ++
    (encode 2 rule.virtualPath.length ++
      (encode 2 rule.realPath.length ++ (rule.virtualPath ++ rule.realPath)))))

def delRecordLen (format : RuleFormat) (path : Bytes) : Nat :=
    DEL_HEADER_LEN + format.extraBytes + path.length

def writeDelRecord (uid : UInt32) (format : RuleFormat) (path : Bytes) : Bytes :=
  encode 4 uid.toNat ++ (writeUidRange format uid ++ (encode 2 path.length ++ path))

/-- The fields of a request page in the order of the kernel's packed struct. -/
structure Payload where
  magic : Nat
  cmd : Nat
  targetUid : Nat
  status : Nat
  arg1 : Nat
  dataSize : Nat
  buffer : Bytes
  deriving DecidableEq, Repr

def Payload.bytes (payload : Payload) : Bytes :=
  encode 8 payload.magic ++ (encode 4 payload.cmd ++
    (encode 4 payload.targetUid ++ (encode 4 payload.status ++
    (encode 4 payload.arg1 ++ (encode 4 payload.dataSize ++ payload.buffer)))))

/-- The page with the status and the cursor which the kernel writes back. -/
def Payload.answer (payload : Payload) (status arg1 : Nat) : Payload :=
  { payload with status := status, arg1 := arg1 }

/-- A fresh request; the kernel leaves the status at -1 unless it handles the page. -/
def request (cmd : NmCommand) (targetUid : UInt32) (buffer : Bytes) : Payload where
  magic := MAGIC
  cmd := cmd.code
  targetUid := targetUid.toNat
  status := 2 ^ 32 - 1
  arg1 := 0
  dataSize := buffer.length
  buffer := buffer ++ List.replicate (BUFFER_LEN - buffer.length) 0

def buildPayload (cmd : NmCommand) (targetUid : UInt32) (buffer : Bytes) : Except Error Bytes :=
  if buffer.length > BUFFER_LEN then
    .error (.vfsProtocol ("buffer " ++ toString buffer.length ++ " exceeds " ++ toString BUFFER_LEN))
  else .ok (request cmd targetUid buffer).bytes

section

variable {α : Type}

/-- Fill pages with records; a record which no longer fits opens the next page. -/
def packRecords (cmd : NmCommand) (uid : UInt32) (check : α → Except Error Unit) (size : α → Nat)
    (record : α → Bytes) : Bytes → List α → Except Error (List Bytes)
  | buffer, [] => if buffer = [] then .ok [] else do return [← buildPayload cmd uid buffer]
  | buffer, item :: rest => do
    check item
    if size item > BUFFER_LEN then
      .error (.vfsProtocol ((if cmd = .delRule then "single del rule needs " else "single rule needs ") ++
        toString (size item) ++ " bytes"))
    else if buffer.length + size item > BUFFER_LEN then
      let page ← buildPayload cmd uid buffer
      return page :: (← packRecords cmd uid check size record (record item) rest)
    else packRecords cmd uid check size record (buffer ++ record item) rest

end

def checkOpaque (format : RuleFormat) (rule : EncodedRule) : Except Error Unit :=
  if format ≠ .hybridMount ∧ rule.flags &&& FLAG_OPAQUE ≠ 0 then
    .error (.vfsProtocol "Hybrid Mount opaque directory rules require the hybridmount provider")
  else .ok ()

def buildAddRulePayloadsFor (rules : List EncodedRule) (uid : UInt32) (format : RuleFormat) :
    Except Error (List Bytes) :=
  packRecords .addRule uid (checkOpaque format) (fun rule => rule.recordLen + format.extraBytes)
    (EncodedRule.writeRecord uid format) [] rules

def buildDelRulePayloadsFor (paths : List Bytes) (uid : UInt32) (format : RuleFormat) :
    Except Error (List Bytes) :=
  packRecords .delRule uid (fun _ => .ok ()) (delRecordLen format) (writeDelRecord uid format) [] paths

/-- A fixed-size field of a response. -/
def field (payload : Bytes) (width offset : Nat) (name : String) : Except Error Bytes :=
  match slice payload offset (offset + width) with
  | some raw => .ok raw
  | none => .error (.vfsProtocol ("response is " ++ toString payload.length ++ " bytes, expected at least " ++
      toString (offset + width) ++ " for the " ++ name ++ " field"))

def toInt32 (n : Nat) : Int := if n < 2 ^ 31 then n else n - 2 ^ 32

def readStatus (payload : Bytes) :
    Except Error Int := do return toInt32 (decode (← field payload 4 16 "status"))

def readArg1 (payload : Bytes) : Except Error Nat := do return decode (← field payload 4 20 "arg1")

def readDataSize (payload : Bytes) : Except Error Nat := do return decode (← field payload 4 24 "data_size")

def ensureStatusAllowing (payload : Bytes) (allowed : List Int) : Except Error Unit := do
  let status ← readStatus payload
  if status < 0 ∧ status ∉ allowed then .error (.vfsProtocol ("kernel returned status " ++ toString status))
  else .ok ()

def ensureStatus (payload : Bytes) : Except Error Unit := ensureStatusAllowing payload []

def ensureFullCursor (payload : Bytes) : Except Error Unit := do
  let arg1 ← readArg1 payload
  let dataSize ← readDataSize payload
  if arg1 ≠ dataSize then
    .error (.vfsProtocol ("kernel consumed " ++ toString arg1 ++ " of " ++ toString dataSize ++ " bytes"))
  else .ok ()

def ensureStatusAllowEnoent (payload : Bytes) : Except Error Unit := do
  ensureStatusAllowing payload [KERNEL_ENOENT]
  ensureFullCursor payload

def ensureStatusAllowEexist (payload : Bytes) : Except Error Unit :=
    ensureStatusAllowing payload [KERNEL_EEXIST]

def ensureConsumed (payload : Bytes) : Except Error Unit := do
  let status ← readStatus payload
  if status < 0 then
    .error (.vfsProtocol ("kernel returned status " ++ toString status ++ " for the record at offset " ++
      toString (← readArg1 payload)))
  else ensureFullCursor payload

/-- One rule of a listing. -/
structure ListedRule where
  flags : UInt32
  uid : UInt32
  virtualPath : String
  realPath : String
  deriving DecidableEq, Repr

def buildListPayload (cmd : NmCommand) (cursor : UInt32) : Except Error Bytes := do
  let page ← buildPayload cmd 0 []
  return page.take 20 ++ (encode 4 cursor.toNat ++ page.drop 24)

def responseBody (payload : Bytes) : Except Error Bytes := do
  let len ← readDataSize payload
  if len > BUFFER_LEN then
    .error (.vfsProtocol ("response claims " ++ toString len ++ " bytes, exceeding " ++ toString BUFFER_LEN))
  else
    match slice payload 28 (28 + len) with
    | some body => .ok body
    | none => .error (.vfsProtocol ("response is too short for its " ++ toString len ++ " byte body"))

/-- A rule identity is one uid, so ranged rules cannot take part in a readback. -/
def ranged (format : RuleFormat) (header : Bytes) (uid : Nat) : Except Error Bool := do
  if format = .nomount22 then
    let uidEnd ← field header 4 8 "rule uid_end"
    return decode uidEnd ≠ uid ∨ slice header 12 20 ≠ some (List.replicate 8 0)
  else return false

def parseRecords (format : RuleFormat) (body : Bytes) (pos : Nat) : Except Error (List ListedRule) :=
  if pos < body.length then
    match slice body pos (pos + (RULE_HEADER_LEN + format.extraBytes)) with
    | none => .error (.vfsProtocol ("truncated rule header at offset " ++ toString pos))
    | some header => do
      let flags := decode (← field header 4 0 "rule flags")
      let uid := decode (← field header 4 4 "rule uid")
      let vLen := decode (← field header 2 (8 + format.extraBytes) "rule v_len")
      let rLen := decode (← field header 2 (10 + format.extraBytes) "rule r_len")
      let paths := pos + (RULE_HEADER_LEN + format.extraBytes)
      match slice body paths (paths + vLen + rLen) with
      | none =>
        .error (.vfsProtocol ("rule at offset " ++ toString paths ++ " claims " ++ toString (vLen + rLen) ++
          " path bytes but the batch ends early"))
      | some raw =>
        let skip ← ranged format header uid
        let rules ← parseRecords format body (paths + vLen + rLen)
        if skip then return rules
        else
          return ⟨.ofNat flags, .ofNat uid, fromUtf8Lossy (raw.take vLen), fromUtf8Lossy (raw.drop vLen)⟩ :: rules
  else .ok []
  termination_by body.length - pos
  decreasing_by
    simp only [RULE_HEADER_LEN]
    omega

def parseListFor (payload : Bytes) (format : RuleFormat) : Except Error (List ListedRule × Nat) := do
  ensureStatus payload
  let body ← responseBody payload
  let rules ← parseRecords format body 0
  return (rules, ← readArg1 payload)

/-- The whole words of a body, as `as_chunks` finds them. -/
def words : Bytes → List UInt32
  | a :: b :: c :: d :: rest => .ofNat (decode [a, b, c, d]) :: words rest
  | _ => []

def parseUids (payload : Bytes) : Except Error (List UInt32 × Nat) := do
  ensureStatus payload
  let body ← responseBody payload
  if body.length % 4 ≠ 0 then
    .error (.vfsProtocol ("uid batch of " ++ toString body.length ++ " bytes is not a whole number of u32"))
  else return (words body, ← readArg1 payload)

/-- The pages of a listing from a cursor on. A page which does not move the cursor
would be asked for again and again. -/
def paginate {α : Type} (fetch : UInt32 → Except Error Bytes) (parse : Bytes → Except Error (List α × UInt32))
    (cursor : UInt32) (all : List α) : Except Error (List α) := do
  let payload ← fetch cursor
  let (batch, next) ← parse payload
  let finished ← if batch.isEmpty then (readDataSize payload).map (· == 0) else pure false
  if finished then return all
  else if _h : next ≤ cursor then
    .error (.vfsProtocol ("kernel returned cursor " ++ toString next ++ " for " ++ toString batch.length ++
      " records requested from " ++ toString cursor))
  else paginate fetch parse next (all ++ batch)
  termination_by 2 ^ 32 - cursor.toNat
  decreasing_by
    have hlt : cursor.toNat < next.toNat := by simpa [UInt32.le_iff_toNat_le] using _h
    have hbound := next.toNat_lt
    omega

end Protocol

end HybridMount
