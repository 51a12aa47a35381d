import HybridMount.ProtocolRoundTrip
import HybridMount.Text

/-! The crash marker which gates the VFS mutations: its text, whom it is attributed to, and its
life over mutations, crashes and handled returns. -/

namespace HybridMount

open LittleEndian

namespace BootGuard

inductive VfsMutationSource where
  | boot
  | cleanup
  | runtime
  | module
  deriving DecidableEq, Repr

def VfsMutationSource.asStr : VfsMutationSource → String
  | boot => "boot"
  | cleanup => "cleanup"
  | runtime => "runtime"
  | module => "module"

structure GuardIdentity where
  version : String
  binary : Option String
  object : Option String
  deriving DecidableEq, Repr

structure GuardRecord where
  version : Option String := none
  binary : Option String := none
  object : Option String := none
  bootId : Option String := none
  source : Option String := none
  deriving DecidableEq, Repr

namespace GuardRecord

def set (record : GuardRecord) (key value : String) : GuardRecord :=
  if key = "version" then { record with version := some value }
  else if key = "binary" then { record with binary := some value }
  else if key = "object" then { record with object := some value }
  else if key = "boot" then { record with bootId := some value }
  else if key = "source" then { record with source := some value }
  else record

def parseLine (record : GuardRecord) (line : List Char) : GuardRecord :=
  match Text.splitOnce ['='] (Text.trim line) with
  | none => record
  | some (key, value) =>
    if Text.trim value = [] then record
    else record.set (String.ofList (Text.trim key)) (String.ofList (Text.trim value))

/-- A text without any known key is no record. -/
def parse (text : String) : Option GuardRecord :=
  let record := (Text.lines text.toList).foldl parseLine {}
  if record = {} then none else some record

/-- A side which does not know its executable or object does not contradict the other one. -/
def agrees (recorded current : Option String) : Bool :=
  match recorded, current with
  | _, none => true
  | some recorded, some current => recorded == current
  | none, some _ => false

/-- Was the marker written by this build? -/
def matchesIdentity (record : GuardRecord) (identity : GuardIdentity) : Bool :=
  record.version == some identity.version &&
    (agrees record.binary identity.binary && agrees record.object identity.object)

def describe (record : GuardRecord) : String :=
  let field (key : String) (value : Option String) : List String :=
    match value with
    | some value => [key ++ "=" ++ value]
    | none => []
  ", ".intercalate (("version=" ++ record.version.getD "unknown") ::
    (field "binary" record.binary ++ field "object" record.object ++ field "boot" record.bootId ++
      field "source" record.source))

end GuardRecord

inductive VfsGuardVerdict where
  | absent
  | own (record : GuardRecord)
  | foreign (record : Option GuardRecord)
  deriving DecidableEq, Repr

/-- The boot identity of the kernel, one trimmed line. -/
structure BootId where
  text : String
  single : '\n' ∉ text.toList
  trimmed : Text.trim text.toList = text.toList

def fieldLine (key : String) (value : Option String) : String :=
  match value with
  | some value => key ++ "=" ++ value ++ "\n"
  | none => ""

def markerPayload (source : VfsMutationSource) (identity : GuardIdentity) (bootId : Option BootId) : String :=
  fieldLine "version" (some identity.version) ++ fieldLine "binary" identity.binary ++
    fieldLine "object" identity.object ++
    fieldLine "boot" (bootId.map BootId.text) ++ fieldLine "source" (some source.asStr)

/-- What a marker file says to a build. -/
def inspectAt (marker : Option Bytes) (identity : GuardIdentity) : VfsGuardVerdict :=
  match marker with
  | none => .absent
  | some bytes =>
    match GuardRecord.parse (fromUtf8Lossy bytes) with
    | some record => if record.matchesIdentity identity then .own record else .foreign (some record)
    | none => .foreign none

/-- How far the steps of an attempt get when there is no marker yet: create, write, and the two
syncs, which come after the whole text was written. -/
inductive ArmSteps where
  | createFails (failure : Error)
  | failsAfter (written : Nat) (failure : Error)
  | completes

def armAt (marker : Option Bytes) (payload : Bytes) (steps : ArmSteps) : Option Bytes × Except Error Unit :=
  match marker with
  | some bytes => (some bytes, .error (.msg "write vfs boot guard: File exists"))
  | none =>
    match steps with
    | .createFails failure => (none, .error failure)
    | .failsAfter written failure => (some (payload.take written), .error failure)
    | .completes => (some payload, .ok ())

/-- Which system calls around an attempt fail. -/
structure ArmSchedule where
  readFails : Option Error
  retireFails : Option Error
  steps : ArmSteps

def refused (record : GuardRecord) : Error :=
  .msg ("VFS boot guard is present and this build wrote it (" ++ record.describe ++
    "); clear it with 'hybrid-mount vfs guard clear --yes' to retry")

def armForMutation (marker : Option Bytes) (identity : GuardIdentity) (payload : Bytes)
    (schedule : ArmSchedule) :
    Option Bytes × Except Error Unit :=
  match schedule.readFails with
  | some failure => (marker, .error failure)
  | none =>
    match inspectAt marker identity with
    | .absent => armAt marker payload schedule.steps
    | .own record => (marker, .error (refused record))
    | .foreign _ =>
      match schedule.retireFails with
      | some failure => (marker, .error failure)
      | none => armAt none payload schedule.steps

/-- The marker file and whether an operation runs which holds its guard. Operations exclude each
other by the operation lock, which the end of a process releases. The last field is not in the
source: a mutation was ended by a crash and its marker was not cleared since. -/
structure GuardState where
  marker : Option Bytes
  running : Bool
  interrupted : Bool

inductive GuardEvent where
  | armAt (source : VfsMutationSource) (bootId : Option BootId) (steps : ArmSteps)
  | armForMutation (source : VfsMutationSource) (bootId : Option BootId) (schedule : ArmSchedule)
  | mutate
  | crash
  | handledReturn
  | clear

def payloadBytes (source : VfsMutationSource) (identity : GuardIdentity) (bootId : Option BootId) : Bytes :=
  utf8 (markerPayload source identity bootId)

def GuardState.armed (s : GuardState) (outcome : Option Bytes × Except Error Unit) : GuardState :=
  { s with marker := outcome.1, running := outcome.2.isOk }

def GuardState.step (identity : GuardIdentity) (s : GuardState) : GuardEvent → GuardState
  | .armAt source bootId steps =>
    if s.running then s else s.armed (BootGuard.armAt s.marker (payloadBytes source identity bootId) steps)
  | .armForMutation source bootId schedule =>
    if s.running then s
    else s.armed (BootGuard.armForMutation s.marker identity (payloadBytes source identity bootId) schedule)
  | .mutate => s
  | .crash => { s with running := false, interrupted := s.interrupted || s.running }
  | .handledReturn => if s.running then { s with marker := none, running := false } else s
  | .clear => if s.running then s else { s with marker := none, interrupted := false }

/-- A line of the marker without its end. -/
def fieldText (key value : String) : List Char := key.toList ++ '=' :: value.toList

def payloadFields (source : VfsMutationSource) (identity : GuardIdentity) (bootId : Option BootId) :
    List (String × Option String) :=
  [("version", some identity.version), ("binary", identity.binary), ("object", identity.object),
    ("boot", bootId.map BootId.text), ("source", some source.asStr)]

def fieldTexts (fields : List (String × Option String)) : List (List Char) :=
  fields.filterMap fun field => field.2.map (fieldText field.1)

theorem fieldLine_toList (key : String) (value : Option String) :
    (fieldLine key value).toList = (fieldTexts [(key, value)]).flatMap (· ++ ['\n']) := by
  cases value with
  | none => rfl
  | some value =>
    simp only [fieldLine, fieldTexts, fieldText, String.toList_append, List.filterMap_cons,
      List.filterMap_nil,
      Option.map_some, List.flatMap_cons, List.flatMap_nil, List.append_nil, List.append_assoc]
    rfl

theorem markerPayload_toList (source : VfsMutationSource) (identity : GuardIdentity)
    (bootId : Option BootId) :
    (markerPayload source identity bootId).toList =
      (fieldTexts (payloadFields source identity bootId)).flatMap (· ++ ['\n']) := by
  have hsplit : fieldTexts (payloadFields source identity bootId) =
      fieldTexts [("version", some identity.version)] ++ fieldTexts [("binary", identity.binary)] ++
        fieldTexts [("object", identity.object)] ++ fieldTexts [("boot", bootId.map BootId.text)] ++
        fieldTexts [("source", some source.asStr)] := by
    simp only [fieldTexts, ← List.filterMap_append]
    rfl
  simp only [markerPayload, String.toList_append, fieldLine_toList, hsplit, List.flatMap_append]

/-- A value which comes back out of its line. -/
structure Plain (value : String) : Prop where
  single : '\n' ∉ value.toList
  trimmed : Text.trim value.toList = value.toList

/-- A key of the marker. -/
structure Label (key : String) : Prop where
  single : '\n' ∉ key.toList
  trimmed : Text.trim key.toList = key.toList
  unsplit : '=' ∉ key.toList
  starts : ∃ first rest, key.toList = first :: rest ∧ Text.isWhitespace first = false

theorem Label.of_payload {source : VfsMutationSource} {identity : GuardIdentity} {bootId : Option BootId}
    {field : String × Option String} (h : field ∈ payloadFields source identity bootId) : Label field.1 := by
  have hversion : Label "version" := ⟨by decide, by decide, by decide, 'v', "ersion".toList, rfl, rfl⟩
  have hbinary : Label "binary" := ⟨by decide, by decide, by decide, 'b', "inary".toList, rfl, rfl⟩
  have hobject : Label "object" := ⟨by decide, by decide, by decide, 'o', "bject".toList, rfl, rfl⟩
  have hboot : Label "boot" := ⟨by decide, by decide, by decide, 'b', "oot".toList, rfl, rfl⟩
  have hsource : Label "source" := ⟨by decide, by decide, by decide, 's', "ource".toList, rfl, rfl⟩
  simp only [payloadFields, List.mem_cons, List.not_mem_nil, or_false] at h
  rcases h with rfl | rfl | rfl | rfl | rfl
  · exact hversion
  · exact hbinary
  · exact hobject
  · exact hboot
  · exact hsource

variable {key value : String}

theorem fieldText_last (key : String) (hvalue : Plain value) :
    ∃ c, (fieldText key value).getLast? = some c ∧ Text.isWhitespace c = false := by
  cases hlast : value.toList.getLast? with
  | none =>
    have hnil : value.toList = [] := List.getLast?_eq_none_iff.mp hlast
    refine ⟨'=', ?_, rfl⟩
    rw [fieldText, hnil, List.getLast?_concat]
  | some c =>
    refine ⟨c, ?_, Text.getLast?_of_trimmed hvalue.trimmed hlast⟩
    rw [fieldText, List.getLast?_append, List.getLast?_cons, hlast]
    rfl

theorem trim_fieldText (hkey : Label key) (hvalue : Plain value) :
    Text.trim (fieldText key value) = fieldText key value := by
  obtain ⟨first, rest, hshape, hfirst⟩ := hkey.starts
  obtain ⟨last, hlast, hspace⟩ := fieldText_last key hvalue
  obtain ⟨front, hfront⟩ := List.getLast?_eq_some_iff.mp hlast
  cases front with
  | nil =>
    rw [List.nil_append, fieldText, hshape] at hfront
    simp at hfront
  | cons c front =>
    have hc : c = first := by
      rw [fieldText, hshape] at hfront
      exact (List.cons.inj hfront).1.symm
    rw [hfront, hc]
    exact Text.trim_of_ends hfirst hspace

theorem parseLine_fieldText (record : GuardRecord) (hkey : Label key) (hvalue : Plain value) :
    record.parseLine (fieldText key value) = if value = "" then record else record.set key value := by
  have hsplit : Text.splitOnce ['='] (fieldText key value) = some (key.toList, value.toList) :=
    Text.splitOnce_char hkey.unsplit value.toList
  have hempty : value.toList = [] ↔ value = "" := String.toList_eq_nil_iff
  simp only [GuardRecord.parseLine, trim_fieldText hkey hvalue, hsplit, hvalue.trimmed, hkey.trimmed,
    String.ofList_toList,
    hempty]

/-- A field of an identity which the marker can carry. -/
structure Carried (value : String) : Prop extends Plain value where
  nonempty : value ≠ ""

structure GuardIdentity.WellFormed (identity : GuardIdentity) : Prop where
  version : Carried identity.version
  binary : ∀ value, identity.binary = some value → Carried value
  object : ∀ value, identity.object = some value → Carried value

section Payload

variable {identity : GuardIdentity} (source : VfsMutationSource) (bootId : Option BootId)

theorem payloadFields_plain (hwf : identity.WellFormed) {field : String × Option String}
    (h : field ∈ payloadFields source identity bootId) (value : String) (hv : field.2 = some value) :
    Plain value := by
  simp only [payloadFields, List.mem_cons, List.not_mem_nil, or_false] at h
  rcases h with rfl | rfl | rfl | rfl | rfl
  · cases hv
    exact hwf.version.toPlain
  · exact (hwf.binary value hv).toPlain
  · exact (hwf.object value hv).toPlain
  · obtain ⟨boot, -, rfl⟩ := Option.map_eq_some_iff.mp hv
    exact ⟨boot.single, boot.trimmed⟩
  · cases hv
    cases source <;> exact ⟨by decide, by decide⟩

theorem lines_payload (hwf : identity.WellFormed) :
    Text.lines (markerPayload source identity bootId).toList = fieldTexts
      (payloadFields source identity bootId) := by
  rw [markerPayload_toList]
  refine Text.lines_terminated fun part hp => ?_
  obtain ⟨field, hfield, hpart⟩ := List.mem_filterMap.mp hp
  obtain ⟨value, hvalue, rfl⟩ := Option.map_eq_some_iff.mp hpart
  have hplain := payloadFields_plain source bootId hwf hfield value hvalue
  have hlabel := Label.of_payload hfield
  obtain ⟨last, hlast, hspace⟩ := fieldText_last field.1 hplain
  refine ⟨fun hmem => ?_, fun hreturn => ?_⟩
  · rcases List.mem_append.mp hmem with hkey | hrest
    · exact hlabel.single hkey
    · rcases List.mem_cons.mp hrest with heq | hvalue
      · exact absurd heq (by decide)
      · exact hplain.single hvalue
  · rw [hlast] at hreturn
    cases hreturn
    exact absurd hspace (by decide)

def setField (record : GuardRecord) (field : String × Option String) : GuardRecord :=
  match field.2 with
  | none => record
  | some value => if value = "" then record else record.set field.1 value

theorem setField_some (record : GuardRecord) (key : String) {value : String} (h : value ≠ "") :
    setField record (key, some value) = record.set key value :=
  if_neg h

theorem foldl_fieldTexts {fields : List (String × Option String)} (record : GuardRecord)
    (h : ∀ field ∈ fields, Label field.1 ∧ ∀ value, field.2 = some value → Plain value) :
    (fieldTexts fields).foldl GuardRecord.parseLine record = fields.foldl setField record := by
  induction fields generalizing record with
  | nil => rfl
  | cons field fields ih =>
    obtain ⟨key, value⟩ := field
    have hrest := fun record => ih record fun f hf => h f (List.mem_cons_of_mem _ hf)
    obtain ⟨hlabel, hplain⟩ := h (key, value) List.mem_cons_self
    cases value with
    | none => exact hrest record
    | some value =>
      have htexts : fieldTexts ((key, some value) :: fields) = fieldText key value :: fieldTexts fields := rfl
      rw [htexts, List.foldl_cons, parseLine_fieldText record hlabel (hplain value rfl), hrest]
      rfl

/-- The record which a marker is read back as. -/
def payloadRecord (identity : GuardIdentity) : GuardRecord where
  version := some identity.version
  binary := identity.binary
  object := identity.object
  bootId := (bootId.map BootId.text).filter (· ≠ "")
  source := some source.asStr

theorem foldl_setField (hwf : identity.WellFormed) :
    (payloadFields source identity bootId).foldl setField {} = payloadRecord source bootId identity := by
  obtain ⟨version, binary, object⟩ := identity
  have hversion : version ≠ "" := hwf.version.nonempty
  have hbinary : ∀ value, binary = some value → value ≠ "" := fun value hv => (hwf.binary value hv).nonempty
  have hobject : ∀ value, object = some value → value ≠ "" := fun value hv => (hwf.object value hv).nonempty
  have hsource : source.asStr ≠ "" := by cases source <;> decide
  have h1 : setField {} ("version", some version) = { version := some version } := by
    rw [setField_some _ _ hversion]
    rfl
  have h2 : setField { version := some version } ("binary", binary) =
      { version := some version, binary := binary } := by
    cases binary with
    | none => rfl
    | some value =>
      rw [setField_some _ _ (hbinary value rfl)]
      rfl
  have h3 : setField { version := some version, binary := binary } ("object", object) =
      { version := some version, binary := binary, object := object } := by
    cases object with
    | none => rfl
    | some value =>
      rw [setField_some _ _ (hobject value rfl)]
      rfl
  have h4 : setField { version := some version, binary := binary, object := object }
      ("boot", bootId.map BootId.text) =
      { version := some version, binary := binary, object := object,
        bootId := (bootId.map BootId.text).filter (· ≠ "") } := by
    cases bootId with
    | none => rfl
    | some boot =>
      by_cases hboot : boot.text = ""
      · have hskip : ∀ record : GuardRecord, setField record ("boot", some boot.text) = record :=
          fun _ => if_pos hboot
        rw [Option.map_some, hskip, Option.filter_some_neg (by simpa using hboot)]
      · rw [Option.map_some, setField_some _ _ hboot, Option.filter_some_pos (by simpa using hboot)]
        rfl
  have h5 : ∀ record : GuardRecord, setField record ("source", some source.asStr) =
      { record with source := some source.asStr } := by
    intro record
    rw [setField_some _ _ hsource]
    rfl
  simp only [payloadFields, List.foldl_cons, List.foldl_nil, h1, h2, h3, h4, h5]
  rfl

theorem parse_payload (hwf : identity.WellFormed) :
    GuardRecord.parse (markerPayload source identity bootId) = some
      (payloadRecord source bootId identity) := by
  have hfold := foldl_fieldTexts {} fun field hf =>
    ⟨Label.of_payload hf, payloadFields_plain source bootId hwf hf⟩
  have hne : payloadRecord source bootId identity ≠ {} := fun hh => by
    have hversion := congrArg GuardRecord.version hh
    cases hversion
  unfold GuardRecord.parse
  rw [lines_payload source bootId hwf, hfold, foldl_setField source bootId hwf]
  exact if_neg hne

/-- Two identities which cannot be taken for one another. -/
def Differs (identity other : GuardIdentity) : Prop :=
  identity.version ≠ other.version ∨
    (∃ left right, identity.binary = some left ∧ other.binary = some right ∧ left ≠ right) ∨
    ∃ left right, identity.object = some left ∧ other.object = some right ∧ left ≠ right

theorem agrees_self (value : Option String) : GuardRecord.agrees value value = true := by
  cases value with
  | none => rfl
  | some value => exact beq_self_eq_true value

theorem payloadRecord_matches : (payloadRecord source bootId identity).matchesIdentity identity = true := by
  simp only [GuardRecord.matchesIdentity, payloadRecord, beq_self_eq_true, agrees_self, Bool.and_self]

theorem payloadRecord_differs {other : GuardIdentity} (h : Differs identity other) :
    (payloadRecord source bootId identity).matchesIdentity other = false := by
  rcases h with hversion | ⟨left, right, hleft, hright, hne⟩ | ⟨left, right, hleft, hright, hne⟩
  · simp [GuardRecord.matchesIdentity, payloadRecord, hversion]
  · simp [GuardRecord.matchesIdentity, payloadRecord, hleft, hright, GuardRecord.agrees, hne]
  · simp [GuardRecord.matchesIdentity, payloadRecord, hleft, hright, GuardRecord.agrees, hne]

end Payload

end BootGuard

end HybridMount
