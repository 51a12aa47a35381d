import HybridMount.PartitionMapping
import HybridMount.ProtocolRoundTrip
import HybridMount.Quoting

/-! The options of one overlay mount: the strings which the two mount interfaces are given, and
how the kernel reads them. -/

namespace HybridMount.MountOptions

open LittleEndian

/-- Does the legacy interface quote the symbol? -/
def isSpecial (ch : Char) : Bool := ch = '\\' || ch = ',' || ch = ':'

def escapeMountOptionValue (value : String) : String :=
  String.ofList (Quoting.escape '\\' isSpecial value.toList)

/-- The string of the legacy interface. -/
def mountData (lowerDirs : List String) (upperdir workdir : Option String) : String :=
  let data := "lowerdir=" ++ ":".intercalate (lowerDirs.map escapeMountOptionValue)
  match upperdir, workdir with
  | some upperdir, some workdir =>
    data ++ ",upperdir=" ++ escapeMountOptionValue upperdir ++ ",workdir=" ++ escapeMountOptionValue workdir
  | _, _ => data

/-- What `fsopen_mount` configures, in this order. -/
def fsopenConfig (upperdir workdir : Option String) (lowerdirConfig source : String) :
    List (String × String) :=
  ("lowerdir", lowerdirConfig) ::
    ((match upperdir, workdir with
      | some upperdir, some workdir => [("upperdir", upperdir), ("workdir", workdir)]
      | _, _ => []) ++ [("source", source)])

/-- What answers the calls of one mount: which paths exist, and the two mount interfaces. -/
structure Interfaces where
  present : Bytes → Bool
  fsopen : List (String × String) → Bytes → Except String Unit
  mount : String → Bytes → Bytes → Except String Unit

inductive MountedBy where
  | fsopen (config : List (String × String))
  | legacy (data : Bytes)
  deriving DecidableEq, Repr

def legacyMount (sys : Interfaces) (mountSource : String) (dest data : Bytes) : Except String MountedBy :=
  match sys.mount mountSource dest data with
  | .ok () => .ok (.legacy data)
  | .error err => .error ("legacy overlay mount " ++ fromUtf8Lossy dest ++ ": " ++ err)

/-- The path of a directory as a text, if it is given and exists. -/
def dirText (sys : Interfaces) (dir : Option Bytes) : Option String :=
  (dir.filter sys.present).map fromUtf8Lossy

def mountOverlayCore (sys : Interfaces) (lowerDirs : List String) (upperdir workdir : Option Bytes)
    (dest : Bytes)
    (mountSource : String) : Except String MountedBy :=
  let lowerdirConfig := ":".intercalate lowerDirs
  let upperdirS := dirText sys upperdir
  let workdirS := dirText sys workdir
  let config := fsopenConfig upperdirS workdirS lowerdirConfig mountSource
  match sys.fsopen config dest with
  | .ok () => .ok (.fsopen config)
  | .error _ =>
    let data := mountData lowerDirs upperdirS workdirS
    if '\x00' ∈ data.toList then .error "overlay mount data contains NUL"
    else legacyMount sys mountSource dest (utf8 data)

/-- The layers of an overlay and its writable directories. -/
structure OverlayOptions where
  lowerdir : List Bytes
  upperdir : Option Bytes
  workdir : Option Bytes
  deriving DecidableEq, Repr

/-- How the kernel reads the layers: split at the colons which no backslash quotes. -/
def decodeLowerdir (value : Bytes) : List Bytes :=
  (Quoting.splitUnquoted 0x5C 0x3A value).map (Quoting.unescape 0x5C)

/-- How the kernel reads one option; it knows no others. -/
def decodeOption (options : OverlayOptions) (option : Bytes) : Option OverlayOptions :=
  if (utf8 "lowerdir=").isPrefixOf option
    then some { options with lowerdir := decodeLowerdir (option.drop 9) }
  else if (utf8 "upperdir=").isPrefixOf option
    then some { options with upperdir := some (Quoting.unescape 0x5C (option.drop 9)) }
  else if (utf8 "workdir=").isPrefixOf option
    then some { options with workdir := some (Quoting.unescape 0x5C (option.drop 8)) }
  else none

def decodeMountData (data : Bytes) : Option OverlayOptions :=
  (Quoting.splitUnquoted 0x5C 0x2C data).foldlM decodeOption ⟨[], none, none⟩

/-- The writable directories, which are passed on together or not at all. -/
def writableDirs (sys : Interfaces) (upperdir workdir : Option Bytes) : Option (Bytes × Bytes) := do
  let upper ← upperdir.filter sys.present
  let work ← workdir.filter sys.present
  return (upper, work)

/-- The bytes of a text without zero characters. -/
def Readable (path : Bytes) : Prop := ∃ text : String, path = utf8 text ∧ '\x00' ∉ text.toList

variable {sys : Interfaces} {lowerDirs : List String} {upperdir workdir : Option Bytes} {dest : Bytes}
  {mountSource : String}

section Bytes

def isSpecialByte (b : UInt8) : Bool := b = 0x5C || b = 0x2C || b = 0x3A

theorem utf8_eq (text : String) : utf8 text = text.toList.flatMap String.utf8EncodeChar := by
  have hencode : text.toUTF8 = text.toList.utf8Encode := String.utf8Encode_toList.symm
  rw [utf8, hencode, List.utf8Encode, List.toList_data_toByteArray]

theorem utf8_ofList (chars : List Char) :
    utf8 (String.ofList chars) = chars.flatMap String.utf8EncodeChar := by
  rw [utf8_eq, String.toList_ofList]

theorem utf8_append (text text' : String) : utf8 (text ++ text') = utf8 text ++ utf8 text' := by
  rw [utf8_eq, utf8_eq, utf8_eq, String.toList_append, List.flatMap_append]

theorem utf8_intercalate (joint : String) (texts : List String) :
    utf8 (joint.intercalate texts) = (utf8 joint).intercalate (texts.map utf8) := by
  induction texts with
  | nil =>
    rw [String.intercalate_nil, List.map_nil, List.intercalate_nil, utf8_eq, String.toList_empty,
      List.flatMap_nil]
  | cons text texts ih =>
    cases texts with
    | nil => rw [String.intercalate_singleton, List.map_singleton, List.intercalate_singleton]
    | cons next texts =>
      rw [String.intercalate_cons_cons, utf8_append, utf8_append, ih]
      simp only [List.map_cons, List.intercalate_cons_cons]

/-- A byte below 128 stands for its character alone. -/
theorem utf8EncodeChar_ascii {c : Char} {b : UInt8} (h : b ∈ String.utf8EncodeChar c) (hb : b < 0x80) :
    c.toNat = b.toNat := by
  have hlt : b.toNat < 128 := UInt8.lt_iff_toNat_lt.mp hb
  have hofNat : ∀ n, (UInt8.ofNat n).toNat = n % 256 := fun n => UInt8.toNat_ofNat'
  simp only [String.utf8EncodeChar] at h
  split at h
  · next hv =>
    rw [List.mem_singleton.mp h, hofNat, Nat.mod_eq_of_lt (by omega)]
    rfl
  · exfalso
    split at h
    · simp only [List.mem_cons, List.not_mem_nil, or_false] at h
      rcases h with rfl | rfl <;> rw [hofNat] at hlt <;> omega
    split at h
    · simp only [List.mem_cons, List.not_mem_nil, or_false] at h
      rcases h with rfl | rfl | rfl <;> rw [hofNat] at hlt <;> omega
    · simp only [List.mem_cons, List.not_mem_nil, or_false] at h
      rcases h with rfl | rfl | rfl | rfl <;> rw [hofNat] at hlt <;> omega

theorem mem_of_mem_utf8 {text : String} {c : Char} {b : UInt8} (h : b ∈ utf8 text) (hb : b < 0x80)
    (hc : c.toNat = b.toNat) :
    c ∈ text.toList := by
  rw [utf8_eq] at h
  obtain ⟨d, hd, hmem⟩ := List.mem_flatMap.mp h
  have hcd : c = d := Char.ext (UInt32.toNat_inj.mp (hc.trans (utf8EncodeChar_ascii hmem hb).symm))
  exact hcd ▸ hd

/-- Quoting characters and quoting their bytes is the same. -/
theorem utf8_escape (value : String) :
    utf8 (escapeMountOptionValue value) = Quoting.escape 0x5C isSpecialByte (utf8 value) := by
  have hchar : ∀ c, (if isSpecial c then ['\\', c] else [c]).flatMap String.utf8EncodeChar =
      Quoting.escape 0x5C isSpecialByte (String.utf8EncodeChar c) := by
    intro c
    cases hc : isSpecial c with
    | true =>
      simp only [isSpecial, Bool.or_eq_true, decide_eq_true_eq] at hc
      rcases hc with (rfl | rfl) | rfl <;> rfl
    | false =>
      have hplain : ∀ b ∈ String.utf8EncodeChar c, isSpecialByte b = false := by
        intro b hb
        by_contra hspecial
        simp only [isSpecialByte, Bool.not_eq_false, Bool.or_eq_true, decide_eq_true_eq] at hspecial
        have hother : ∀ d : Char, isSpecial d = true → c.toNat ≠ d.toNat := by
          intro d hd heq
          rw [Char.ext (UInt32.toNat_inj.mp heq), hd] at hc
          cases hc
        rcases hspecial with (rfl | rfl) | rfl
        · exact hother '\\' (by decide) (utf8EncodeChar_ascii hb (by decide))
        · exact hother ',' (by decide) (utf8EncodeChar_ascii hb (by decide))
        · exact hother ':' (by decide) (utf8EncodeChar_ascii hb (by decide))
      rw [Quoting.escape_of_plain hplain, if_neg Bool.false_ne_true, List.flatMap_singleton]
  rw [escapeMountOptionValue, utf8_ofList, utf8_eq, Quoting.escape, Quoting.escape, List.flatMap_assoc,
    List.flatMap_assoc]
  exact List.flatMap_congr fun c _ => hchar c

end Bytes

section Decoding

theorem isSpecialByte_quote : isSpecialByte 0x5C = true := by decide

theorem utf8_texts :
    utf8 "lowerdir=" = [108, 111, 119, 101, 114, 100, 105, 114, 61] ∧
      utf8 "upperdir=" = [117, 112, 112, 101, 114, 100, 105, 114, 61] ∧
      utf8 "workdir=" = [119, 111, 114, 107, 100, 105, 114, 61] ∧
      utf8 ",upperdir=" = 0x2C :: utf8 "upperdir=" ∧ utf8 ",workdir=" = 0x2C :: utf8 "workdir=" ∧
        utf8 ":" = [0x3A] := by
  decide +kernel

theorem shielded_keys : Quoting.Shielded 0x5C 0x2C (utf8 "lowerdir=") ∧
    Quoting.Shielded 0x5C 0x2C (utf8 "upperdir=") ∧
    Quoting.Shielded 0x5C 0x2C (utf8 "workdir=") := by
  obtain ⟨hlower, hupper, hwork, -⟩ := utf8_texts
  rw [hlower, hupper, hwork]
  exact ⟨Quoting.shielded_of_not_mem (by decide) (by decide),
    Quoting.shielded_of_not_mem (by decide) (by decide),
    Quoting.shielded_of_not_mem (by decide) (by decide)⟩

theorem decodeOption_lowerdir (options : OverlayOptions) (value : Bytes) :
    decodeOption options (utf8 "lowerdir=" ++ value) = some
      { options with lowerdir := decodeLowerdir value } := by
  obtain ⟨hkey, -⟩ := utf8_texts
  simp [decodeOption, hkey, List.isPrefixOf]

theorem decodeOption_upperdir (options : OverlayOptions) (value : Bytes) :
    decodeOption options (utf8 "upperdir=" ++ value) = some
      { options with upperdir := some (Quoting.unescape 0x5C value) } := by
  obtain ⟨hlower, hkey, -⟩ := utf8_texts
  simp [decodeOption, hlower, hkey, List.isPrefixOf]

theorem decodeOption_workdir (options : OverlayOptions) (value : Bytes) :
    decodeOption options (utf8 "workdir=" ++ value) = some
      { options with workdir := some (Quoting.unescape 0x5C value) } := by
  obtain ⟨hlower, hupper, hkey, -⟩ := utf8_texts
  simp [decodeOption, hlower, hupper, hkey, List.isPrefixOf]

/-- The layers as they stand behind their key. -/
def lowerValue (lowerDirs : List String) : Bytes :=
  List.intercalate [0x3A] ((lowerDirs.map utf8).map (Quoting.escape 0x5C isSpecialByte))

theorem utf8_lowerValue (lowerDirs : List String) :
    utf8 (":".intercalate (lowerDirs.map escapeMountOptionValue)) = lowerValue lowerDirs := by
  obtain ⟨-, -, -, -, -, hcolon⟩ := utf8_texts
  rw [utf8_intercalate, hcolon, lowerValue, List.map_map, List.map_map]
  exact congrArg _ (List.map_congr_left fun dir _ => utf8_escape dir)

theorem shielded_lowerValue (lowerDirs : List String) :
    Quoting.Shielded 0x5C 0x2C (lowerValue lowerDirs) := by
  refine Quoting.Shielded.intercalate (Quoting.shielded_of_not_mem (by decide) (by decide)) fun piece hp => ?_
  obtain ⟨dir, -, rfl⟩ := List.mem_map.mp hp
  exact Quoting.shielded_escape isSpecialByte_quote (by decide) dir

theorem decodeLowerdir_lowerValue (hne : lowerDirs ≠ []) :
    decodeLowerdir (lowerValue lowerDirs) = lowerDirs.map utf8 := by
  have hsplit : Quoting.splitUnquoted 0x5C 0x3A (lowerValue lowerDirs) =
      (lowerDirs.map utf8).map (Quoting.escape 0x5C isSpecialByte) := by
    refine Quoting.splitUnquoted_intercalate (by decide) (by simpa using hne) fun piece hp => ?_
    obtain ⟨dir, -, rfl⟩ := List.mem_map.mp hp
    exact Quoting.shielded_escape isSpecialByte_quote (by decide) dir
  have hback : Quoting.unescape 0x5C ∘ Quoting.escape 0x5C isSpecialByte = id :=
    funext fun dir => Quoting.unescape_escape isSpecialByte_quote dir
  rw [decodeLowerdir, hsplit, List.map_map, hback, List.map_id]

theorem decode_lower_only (hne : lowerDirs ≠ []) {upper work : Option String}
    (h : upper = none ∨ work = none) :
    decodeMountData (utf8 (mountData lowerDirs upper work)) = some ⟨lowerDirs.map utf8, none, none⟩ := by
  have hdata : mountData lowerDirs upper work = "lowerdir=" ++
      ":".intercalate (lowerDirs.map escapeMountOptionValue) := by
    rcases h with rfl | rfl
    · rfl
    · cases upper <;> rfl
  have hshield := shielded_keys.1.append (shielded_lowerValue lowerDirs)
  rw [hdata, utf8_append, utf8_lowerValue, decodeMountData, Quoting.splitUnquoted_self hshield,
    List.foldlM_cons,
    decodeOption_lowerdir, decodeLowerdir_lowerValue hne]
  rfl

theorem decode_with_writable (hne : lowerDirs ≠ []) (upper work : String) :
    decodeMountData (utf8 (mountData lowerDirs (some upper) (some work))) =
      some ⟨lowerDirs.map utf8, some (utf8 upper), some (utf8 work)⟩ := by
  obtain ⟨hlower, hupper, hwork⟩ := shielded_keys
  have hvalue : ∀ dir : String, Quoting.Shielded 0x5C 0x2C (Quoting.escape 0x5C isSpecialByte (utf8 dir)) :=
      fun dir =>
    Quoting.shielded_escape isSpecialByte_quote (by decide) _
  have hback : ∀ dir : String, Quoting.unescape 0x5C (Quoting.escape 0x5C isSpecialByte (utf8 dir)) =
      utf8 dir := fun dir =>
    Quoting.unescape_escape isSpecialByte_quote _
  obtain ⟨-, -, -, hupperKey, hworkKey, -⟩ := utf8_texts
  have hdata : utf8 (mountData lowerDirs (some upper) (some work)) =
      (utf8 "lowerdir=" ++ lowerValue lowerDirs) ++
        0x2C :: ((utf8 "upperdir=" ++ Quoting.escape 0x5C isSpecialByte (utf8 upper)) ++
        0x2C :: (utf8 "workdir=" ++ Quoting.escape 0x5C isSpecialByte (utf8 work))) := by
    simp only [mountData, utf8_append, utf8_lowerValue, utf8_escape, hupperKey, hworkKey, List.append_assoc,
      List.cons_append]
  rw [hdata, decodeMountData,
    Quoting.splitUnquoted_append (by decide) (hlower.append (shielded_lowerValue lowerDirs)),
    Quoting.splitUnquoted_append (by decide) (hupper.append (hvalue upper)),
      Quoting.splitUnquoted_self (hwork.append (hvalue work)),
    List.foldlM_cons, decodeOption_lowerdir, decodeLowerdir_lowerValue hne]
  change List.foldlM decodeOption ⟨lowerDirs.map utf8, none, none⟩ _ = _
  rw [List.foldlM_cons, decodeOption_upperdir, hback]
  change List.foldlM decodeOption ⟨lowerDirs.map utf8, some (utf8 upper), none⟩ _ = _
  rw [List.foldlM_cons, decodeOption_workdir, hback]
  rfl

theorem nul_not_mem_escape {value : String} (h : '\x00' ∉ value.toList) :
    '\x00' ∉ (escapeMountOptionValue value).toList := by
  rw [escapeMountOptionValue, String.toList_ofList]
  intro hmem
  rcases Quoting.mem_escape hmem with hq | hv
  · exact absurd hq (by decide)
  · exact h hv

theorem nul_not_mem_data (hnul : ∀ dir ∈ lowerDirs, '\x00' ∉ dir.toList) {upper work : Option String}
    (h : ∀ u w, upper = some u → work = some w → '\x00' ∉ u.toList ∧ '\x00' ∉ w.toList) :
    '\x00' ∉ (mountData lowerDirs upper work).toList := by
  have hlower : '\x00' ∉ (":".intercalate (lowerDirs.map escapeMountOptionValue)).toList := by
    rw [String.toList_intercalate]
    intro hmem
    rcases Quoting.mem_intercalate hmem with hjoint | ⟨piece, hp, hin⟩
    · exact absurd hjoint (by decide)
    · rw [List.map_map] at hp
      obtain ⟨dir, hdir, rfl⟩ := List.mem_map.mp hp
      exact nul_not_mem_escape (hnul dir hdir) hin
  have hkeys : '\x00' ∉ "lowerdir=".toList ∧ '\x00' ∉ ",upperdir=".toList ∧ '\x00' ∉ ",workdir=".toList := by
    decide
  cases upper with
  | none =>
    simp only [mountData, String.toList_append, List.mem_append, not_or]
    exact ⟨hkeys.1, hlower⟩
  | some u =>
    cases work with
    | none =>
      simp only [mountData, String.toList_append, List.mem_append, not_or]
      exact ⟨hkeys.1, hlower⟩
    | some w =>
      obtain ⟨hu, hw⟩ := h u w rfl rfl
      simp only [mountData, String.toList_append, List.mem_append, not_or]
      exact ⟨⟨⟨⟨⟨hkeys.1, hlower⟩, hkeys.2.1⟩, nul_not_mem_escape hu⟩, hkeys.2.2⟩, nul_not_mem_escape hw⟩

/-- The form of the layers without quotes, split at every colon, or as the legacy interface reads it. -/
theorem lowerdir_unquoted (hne : lowerDirs ≠ [])
    (hplain : ∀ dir ∈ lowerDirs, ':' ∉ dir.toList ∧ '\\' ∉ dir.toList) :
    (utf8 (":".intercalate lowerDirs)).splitOn 0x3A = lowerDirs.map utf8 ∧
      decodeLowerdir (utf8 (":".intercalate lowerDirs)) = lowerDirs.map utf8 := by
  obtain ⟨-, -, -, -, -, hcolon⟩ := utf8_texts
  have hbytes : ∀ piece ∈ lowerDirs.map utf8, (0x3A : UInt8) ∉ piece ∧ (0x5C : UInt8) ∉ piece := by
    intro piece hp
    obtain ⟨dir, hdir, rfl⟩ := List.mem_map.mp hp
    exact ⟨fun hh => (hplain dir hdir).1 (mem_of_mem_utf8 hh (by decide) (by decide)),
      fun hh => (hplain dir hdir).2 (mem_of_mem_utf8 hh (by decide) (by decide))⟩
  have hsome : lowerDirs.map utf8 ≠ [] := by simpa using hne
  rw [utf8_intercalate, hcolon]
  refine ⟨List.splitOn_intercalate _ (fun piece hp => (hbytes piece hp).1) hsome, ?_⟩
  rw [decodeLowerdir, Quoting.splitUnquoted_intercalate (by decide) hsome fun piece hp =>
    Quoting.shielded_of_not_mem (hbytes piece hp).2 (hbytes piece hp).1]
  exact (List.map_congr_left fun piece hp => Quoting.unescape_of_not_mem (hbytes piece hp).2).trans
    (List.map_id _)

end Decoding

section Mounting

/-- The texts of the writable directories, when both are given and exist. -/
theorem dirText_writable
    (h : ∀ dirs, writableDirs sys upperdir workdir = some dirs → Readable dirs.1 ∧ Readable dirs.2) :
    (∃ u w : String, dirText sys upperdir = some u ∧ dirText sys workdir = some w ∧
      writableDirs sys upperdir workdir = some (utf8 u, utf8 w) ∧ '\x00' ∉ u.toList ∧ '\x00' ∉ w.toList) ∨
    ((dirText sys upperdir = none ∨ dirText sys workdir = none) ∧
      writableDirs sys upperdir workdir = none) := by
  unfold dirText
  unfold writableDirs at h ⊢
  cases hu : upperdir.filter sys.present with
  | none => exact .inr ⟨.inl rfl, rfl⟩
  | some upper =>
    cases hw : workdir.filter sys.present with
    | none => exact .inr ⟨.inr rfl, rfl⟩
    | some work =>
      rw [hu, hw] at h
      obtain ⟨hupper, hwork⟩ := h (upper, work) rfl
      obtain ⟨u, rfl, hnulu⟩ := hupper
      obtain ⟨w, rfl, hnulw⟩ := hwork
      refine .inl ⟨u, w, ?_, ?_, rfl, hnulu, hnulw⟩
      · rw [Option.map_some, fromUtf8Lossy_utf8]
      · rw [Option.map_some, fromUtf8Lossy_utf8]

/-- A path which a partition layout maps has none of the symbols that the other interface
would have to quote. -/
theorem mapTarget_plain {layout : Plan.PartitionLayout} {relative : Plan.Names} {place : String × Plan.Names}
    (h : layout.mapTarget relative = .ok place) :
    ∀ name ∈ relative, ':' ∉ name.toList ∧ '\\' ∉ name.toList := by
  obtain ⟨-, hbad, -⟩ := Plan.PartitionLayout.mapTarget_ok h
  intro name hname
  have hnot : ¬ Plan.badComponent name = true := List.any_eq_false.mp hbad name hname
  rw [Plan.PartitionLayout.badComponent_iff] at hnot
  exact ⟨fun hh => hnot (.inr (.inr (.inr (.inr (.inr hh))))), fun hh => hnot (.inr (.inr (.inr (.inl hh))))⟩

/-- Where the first interface fails, the kernel reads the layers and the writable directories out
of the string of the other one, and what the first one was given denotes the same layers. -/
theorem mountOverlayCore_options (sys : Interfaces) (lowerDirs : List String)
    (upperdir workdir : Option Bytes) (dest : Bytes) (mountSource : String) (hne : lowerDirs ≠ [])
    (hnul : ∀ dir ∈ lowerDirs, '\x00' ∉ dir.toList)
    (hdirs : ∀ dirs, writableDirs sys upperdir workdir = some dirs → Readable dirs.1 ∧ Readable dirs.2) :
    ∃ config data,
      (sys.fsopen config dest = .ok () → mountOverlayCore sys lowerDirs upperdir workdir dest mountSource =
        .ok (.fsopen config)) ∧
      (∀ e, sys.fsopen config dest = .error e →
        mountOverlayCore sys lowerDirs upperdir workdir dest mountSource = legacyMount sys mountSource
          dest data) ∧
      decodeMountData data = some ⟨lowerDirs.map utf8, (writableDirs sys upperdir workdir).map Prod.fst,
        (writableDirs sys upperdir workdir).map Prod.snd⟩ ∧
      ((∀ dir ∈ lowerDirs, ':' ∉ dir.toList ∧ '\\' ∉ dir.toList) →
        ∃ value, config.lookup "lowerdir" = some value ∧
        (utf8 value).splitOn 0x3A = lowerDirs.map utf8 ∧ decodeLowerdir (utf8 value) = lowerDirs.map utf8) ∧
      ∀ (layout : Plan.PartitionLayout) (relative : Plan.Names) (place : String × Plan.Names),
        layout.mapTarget relative = .ok place →
        ∀ name ∈ relative, ':' ∉ name.toList ∧ '\\' ∉ name.toList := by
  let config := fsopenConfig (dirText sys upperdir) (dirText sys workdir)
    (":".intercalate lowerDirs) mountSource
  let text := mountData lowerDirs (dirText sys upperdir) (dirText sys workdir)
  have hplain : (∀ dir ∈ lowerDirs, ':' ∉ dir.toList ∧ '\\' ∉ dir.toList) →
      ∃ value, config.lookup "lowerdir" = some value ∧
      (utf8 value).splitOn 0x3A = lowerDirs.map utf8 ∧
        decodeLowerdir (utf8 value) = lowerDirs.map utf8 := fun h =>
    ⟨":".intercalate lowerDirs, rfl, lowerdir_unquoted hne h⟩
  have hnulText : '\x00' ∉ text.toList := by
    refine nul_not_mem_data hnul fun u w hu hw => ?_
    rcases dirText_writable hdirs with ⟨u', w', hu', hw', -, hnulu, hnulw⟩ | ⟨hnone | hnone, -⟩
    · rw [hu'] at hu
      rw [hw'] at hw
      cases hu
      cases hw
      exact ⟨hnulu, hnulw⟩
    · rw [hnone] at hu
      cases hu
    · rw [hnone] at hw
      cases hw
  refine ⟨config, utf8 text, fun hok => ?_, fun e herr => ?_, ?_, hplain, fun _ _ _ h => mapTarget_plain h⟩
  · simp only [mountOverlayCore]
    rw [hok]
  · simp only [mountOverlayCore]
    rw [herr]
    dsimp only
    rw [if_neg hnulText]
  · rcases dirText_writable hdirs with ⟨u, w, hu, hw, hboth, -, -⟩ | ⟨hnone, hneither⟩
    · simp only [text, hu, hw, hboth]
      exact decode_with_writable hne u w
    · rw [hneither]
      exact decode_lower_only hne hnone

/-- A kernel without the first interface. -/
def legacyOnly (present : Bytes → Bool) : Interfaces where
  present := present
  fsopen _ _ := .error "fsopen overlay: ENOSYS"
  mount _ _ _ := .ok ()

/-- Layers with every symbol that has to be quoted, and a writable directory. -/
theorem mountOverlayCore_options_quoted : ∃ data,
    mountOverlayCore (legacyOnly fun _ => true) ["/a,b", "/c:d\\"] (some (utf8 "/u,")) (some (utf8 "/w")) []
      "KSU" = .ok (.legacy data) ∧
      decodeMountData data = some ⟨[utf8 "/a,b", utf8 "/c:d\\"], some (utf8 "/u,"), some (utf8 "/w")⟩ := by
  obtain ⟨config, data, -, hlegacy, hdecode, -⟩ := mountOverlayCore_options (legacyOnly fun _ => true)
    ["/a,b", "/c:d\\"] (some (utf8 "/u,")) (some (utf8 "/w")) [] "KSU" (by decide) (by decide) (by
      intro dirs h
      cases h
      exact ⟨⟨"/u,", rfl, by decide⟩, ⟨"/w", rfl, by decide⟩⟩)
  exact ⟨data, hlegacy _ rfl, hdecode⟩

/-- A writable directory which has no existing counterpart is left out, and bytes of its path
which are no text are replaced. -/
theorem writable_dirs_lost :
    (mountOverlayCore (legacyOnly fun path => path = utf8 "/u") ["/a"] (some (utf8 "/u"))
    (some (utf8 "/w")) [] "KSU" =
        .ok (.legacy (utf8 "lowerdir=/a")) ∧
      decodeMountData (utf8 "lowerdir=/a") ≠ some ⟨[utf8 "/a"], some (utf8 "/u"), some (utf8 "/w")⟩) ∧
    mountOverlayCore (legacyOnly fun _ => true) ["/a"] (some [0x2F, 0xFF]) (some (utf8 "/w")) [] "KSU" =
        .ok (.legacy (utf8 "lowerdir=/a,upperdir=/\uFFFD,workdir=/w")) ∧
      decodeMountData (utf8 "lowerdir=/a,upperdir=/\uFFFD,workdir=/w") ≠
        some ⟨[utf8 "/a"], some [0x2F, 0xFF], some (utf8 "/w")⟩ := by
  decide +kernel

end Mounting

end HybridMount.MountOptions
