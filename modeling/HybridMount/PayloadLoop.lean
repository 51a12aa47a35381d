import HybridMount.ProtocolRoundTrip

/-! The batch commands of the kernel module: a loop over the packed records of a
page which runs one operation for each of them and reports the first failure. -/

namespace HybridMount.Vfs

open LittleEndian

def PATH_MAX : Nat := 4096

def EINVAL : Int32 := -22

def ENOENT : Int32 := -2

/-- A record header with its place in the buffer; the paths follow the header. -/
structure Record where
  offset : Nat
  flags : Nat
  uid : Nat
  vLen : Nat
  rLen : Nat
  deriving DecidableEq, Repr

def Record.size (record : Record) : Nat := record.vLen + record.rLen

/-- How a command lays out its records and which ones it does not accept. -/
structure RecordFormat where
  headerLen : Nat
  header : Bytes → Nat → Record
  refused : Record → Bool
  positive : 0 < headerLen

def readLe (buffer : Bytes) (offset width : Nat) : Nat := decode ((buffer.drop offset).take width)

def ruleFormat : RecordFormat where
  headerLen := RULE_HEADER_LEN
  header buffer offset :=
    ⟨offset, readLe buffer offset 4, readLe buffer (offset + 4) 4, readLe buffer (offset + 8) 2,
      readLe buffer (offset + 10) 2⟩
  refused record := PATH_MAX ≤ record.vLen || PATH_MAX ≤ record.rLen
  positive := by decide

def delFormat : RecordFormat where
  headerLen := Protocol.DEL_HEADER_LEN
  header buffer offset := ⟨offset, 0, readLe buffer offset 4, readLe buffer (offset + 4) 2, 0⟩
  refused _ := false
  positive := by decide

/-- The loop variables, what was executed with which result, and the ranges of the buffer which were read. -/
structure Walk (σ : Type) where
  state : σ
  firstErr : Int32
  errOffset : Nat
  cursor : Nat
  executed : List (Record × Int32)
  reads : List (Nat × Nat)

section

variable {σ : Type}

/-- Only the first failure is kept. -/
def Walk.note (walk : Walk σ) (err : Int32) (offset : Nat) : Walk σ :=
  if err ≠ 0 ∧ walk.firstErr = 0 then { walk with firstErr := err, errOffset := offset } else walk

/-- One round of the loop body for a record that is not cut off. -/
def Walk.execute (walk : Walk σ) (exec : Record → σ → Int32 × σ) (headerLen : Nat)
    (record : Record) : Walk σ :=
  let result := exec record walk.state
  let walk := walk.note result.1 record.offset
  { walk with
    state := result.2
    cursor := walk.cursor + headerLen + record.size
    executed := walk.executed ++ [(record, result.1)]
    reads := walk.reads ++ [(walk.cursor + headerLen, walk.cursor + headerLen + record.size)] }

def walkRecords (format : RecordFormat) (exec : Record → σ → Int32 × σ) (buffer : Bytes) (bufEnd : Nat)
    (walk : Walk σ) : Walk σ :=
  if h : format.headerLen ≤ bufEnd - walk.cursor then
    let record := format.header buffer walk.cursor
    let read := { walk with reads := walk.reads ++ [(walk.cursor, walk.cursor + format.headerLen)] }
    if bufEnd - (walk.cursor + format.headerLen) < record.size ∨ format.refused record = true then
      -- A cut off record must not pass silently.
      let failed := read.note EINVAL walk.cursor
      { failed with cursor := walk.cursor + format.headerLen }
    else walkRecords format exec buffer bufEnd (read.execute exec format.headerLen record)
  else walk
  termination_by bufEnd - walk.cursor
  decreasing_by
    have hpos := format.positive
    have hcursor : (read.execute exec format.headerLen record).cursor =
        walk.cursor + format.headerLen + record.size := by
      simp only [Walk.execute, Walk.note, read]
      split <;> rfl
    rw [hcursor]
    omega

/-- Bytes left over after the last record are a failure of their own. -/
def Walk.close (walk : Walk σ) (bufEnd : Nat) : Walk σ :=
  if walk.cursor ≠ bufEnd then walk.note EINVAL walk.cursor else walk

def statusOf (err : Int32) : Nat := err.toUInt32.toNat

/-- The shared shape of the batch handlers. -/
def runBatch (format : RecordFormat) (exec : Record → σ → Int32 × σ) (silent : σ → Int32)
    (payload : Protocol.Payload) (state : σ) : Protocol.Payload × Walk σ :=
  let start : Walk σ := ⟨state, 0, 0, payload.arg1, [], []⟩
  if payload.buffer.length < payload.dataSize ∨ payload.dataSize < payload.arg1 then
    (payload.answer (statusOf EINVAL) payload.arg1, start)
  else
    let walk := (walkRecords format exec payload.buffer payload.dataSize start).close payload.dataSize
    if walk.firstErr ≠ 0 then (payload.answer (statusOf walk.firstErr) walk.errOffset, walk)
    else (payload.answer (statusOf (silent walk.state)) walk.cursor, walk)

/-- The `ADD_RULE` handler over what adding one rule does. -/
def addRules (addRule : Record → σ → Int32 × σ) (payload : Protocol.Payload) (state : σ) :
    Protocol.Payload × Walk σ :=
  runBatch ruleFormat addRule (fun _ => 0) payload state

/-- The `DEL_RULE` handler; a batch which retires nothing is answered with `ENOENT`. -/
def delRules (delRule : Record → σ → Int32 × σ) (noVictims : σ → Bool) (payload : Protocol.Payload) (state : σ) :
    Protocol.Payload × Walk σ :=
  runBatch delFormat delRule (fun s => if noVictims s then ENOENT else 0) payload state

end

end HybridMount.Vfs
