import HybridMount.Protocol
import Mathlib.Data.Nat.Bitwise

/-! The kernel module held in memory: what is read of its ELF file, and how its vermagic is
replaced. The parser of object files is a parameter. -/

namespace HybridMount

open LittleEndian

namespace Lkm

/-- The largest length of a vector. -/
def isizeMax : Nat := 9223372036854775807

def usizeMax : Nat := 18446744073709551615

inductive BinaryFormat where
  | elf
  | other
  deriving DecidableEq

inductive Endianness where
  | little
  | big
  deriving DecidableEq

inductive Architecture where
  | aarch64
  | other
  deriving DecidableEq

inductive ObjectKind where
  | relocatable
  | other
  deriving DecidableEq

structure ObjectSection where
  index : Nat
  align : Nat
  data : Except String Bytes
  fileRange : Option (Nat × Nat)

structure ObjectSymbol where
  index : Nat
  name : Except String String
  isUndefined : Bool

/-- What the parser of object files finds; a symbol goes by its place in the symbol table. -/
structure ObjectFile where
  format : BinaryFormat
  is64 : Bool
  endianness : Endianness
  architecture : Architecture
  kind : ObjectKind
  sectionByName : String → Option ObjectSection
  symbols : List ObjectSymbol
  nodup : (symbols.map ObjectSymbol.index).Nodup

def checkedRange (bytes : Bytes) (offset size : Nat) : Except String Bytes :=
  if offset + size ≤ usizeMax then
    match slice bytes offset (offset + size) with
    | some part => .ok part
    | none => .error "ELF section outside the module image"
  else .error "ELF range overflow"

theorem checkedRange_le {bytes part : Bytes} {offset size : Nat}
    (h : checkedRange bytes offset size = .ok part) :
    offset + size ≤ bytes.length := by
  unfold checkedRange at h
  by_cases hmax : offset + size ≤ usizeMax
  · rw [if_pos hmax] at h
    cases hs : slice bytes offset (offset + size) with
    | none => simp only [hs] at h; cases h
    | some found => exact (length_of_slice hs).2
  · rw [if_neg hmax] at h
    cases h

/-- The entries of a module's metadata, which zero bytes separate and pad. -/
def metadataEntries (modinfo : Bytes) : List Bytes := modinfo.splitOn 0

def metadataField (modinfo : Bytes) (label : String) : Except String String :=
  match (metadataEntries modinfo).find? fun entry => (utf8 label).isPrefixOf entry with
  | none => .error "missing module metadata"
  | some entry =>
    match String.fromUTF8? ⟨(entry.drop (utf8 label).length).toArray⟩ with
    | some text => .ok text
    | none => .error "invalid utf-8 sequence"

def isNameByte (byte : UInt8) : Bool :=
  (0x30 ≤ byte && byte ≤ 0x39) || (0x41 ≤ byte && byte ≤ 0x5A) || (0x61 ≤ byte && byte ≤ 0x7A) || byte == 0x5F

/-- The undefined symbols and where their entries lie in the image. -/
def collectUndefined (symoff symsize : Nat) : List ObjectSymbol → Except String (List (String × Nat))
  | [] => .ok []
  | symbol :: rest =>
    if symbol.isUndefined then do
      let name ← symbol.name
      if name = "" then collectUndefined symoff symsize rest
      else if usizeMax < symbol.index * 24 then .error "symbol offset overflow"
      else if symbol.index * 24 + 24 ≤ symsize then do
        let undefined ← collectUndefined symoff symsize rest
        return (name, symoff + symbol.index * 24) :: undefined
      else .error "symbol outside .symtab"
    else collectUndefined symoff symsize rest

/-- The entries of two symbols have no byte in common. -/
def Apart (left right : String × Nat) : Prop := left.2 + 24 ≤ right.2 ∨ right.2 + 24 ≤ left.2

structure ModuleImage where
  bytes : Bytes
  name : String
  vermagic : String
  modinfoHeader : Nat
  modinfoAlignment : Nat
  modinfo : Bytes
  undefined : List (String × Nat)
  header_le : modinfoHeader + 64 ≤ bytes.length
  alignment_power : modinfoAlignment.isPowerOfTwo
  alignment_le : modinfoAlignment ≤ 64 * 1024 * 1024
  undefined_le : ∀ symbol ∈ undefined, symbol.2 + 24 ≤ bytes.length
  undefined_apart : undefined.Pairwise Apart

/-- The entries collected from a table of the image. -/
theorem collectUndefined_spec {symoff symsize : Nat} {symbols : List ObjectSymbol}
    {undefined : List (String × Nat)}
    (h : collectUndefined symoff symsize symbols = .ok undefined)
    (hn : (symbols.map ObjectSymbol.index).Nodup) :
    (∀ entry ∈ undefined, ∃ symbol ∈ symbols, entry.2 = symoff + symbol.index * 24 ∧
      entry.2 + 24 ≤ symoff + symsize) ∧
      undefined.Pairwise Apart := by
  induction symbols generalizing undefined with
  | nil =>
    cases h
    exact ⟨fun _ he => absurd he List.not_mem_nil, List.Pairwise.nil⟩
  | cons symbol symbols ih =>
    obtain ⟨hfresh, hn⟩ := List.nodup_cons.mp hn
    have hskip : collectUndefined symoff symsize symbols = .ok undefined →
        (∀ entry ∈ undefined, ∃ s ∈ symbol :: symbols, entry.2 = symoff + s.index * 24 ∧
          entry.2 + 24 ≤ symoff + symsize) ∧
          undefined.Pairwise Apart := by
      intro hh
      obtain ⟨hmem, hapart⟩ := ih hh hn
      refine ⟨fun entry he => ?_, hapart⟩
      obtain ⟨s, hs, hentry⟩ := hmem entry he
      exact ⟨s, List.mem_cons_of_mem _ hs, hentry⟩
    rw [collectUndefined] at h
    by_cases hu : symbol.isUndefined
    · rw [if_pos hu] at h
      cases hname : symbol.name with
      | error e => rw [hname] at h; cases h
      | ok name =>
        rw [hname] at h
        change (if name = "" then _ else _) = _ at h
        by_cases hempty : name = ""
        · rw [if_pos hempty] at h
          exact hskip h
        · rw [if_neg hempty] at h
          by_cases hover : usizeMax < symbol.index * 24
          · rw [if_pos hover] at h
            cases h
          · rw [if_neg hover] at h
            by_cases hin : symbol.index * 24 + 24 ≤ symsize
            · rw [if_pos hin] at h
              cases hrest : collectUndefined symoff symsize symbols with
              | error e => rw [hrest] at h; cases h
              | ok rest =>
                rw [hrest] at h
                cases h
                obtain ⟨hmem, hapart⟩ := ih hrest hn
                refine ⟨fun entry he => ?_, List.pairwise_cons.mpr ⟨fun entry he => ?_, hapart⟩⟩
                · rcases List.mem_cons.mp he with rfl | he
                  · exact ⟨symbol, List.mem_cons_self, rfl, by dsimp only; omega⟩
                  · obtain ⟨s, hs, hentry⟩ := hmem entry he
                    exact ⟨s, List.mem_cons_of_mem _ hs, hentry⟩
                · obtain ⟨s, hs, hoffset, -⟩ := hmem entry he
                  have hne : symbol.index ≠ s.index := fun hh => hfresh (hh ▸ List.mem_map_of_mem hs)
                  simp only [Apart, hoffset]
                  omega
            · rw [if_neg hin] at h
              cases h
    · rw [if_neg hu] at h
      exact hskip h

def require {α : Type} (value : Option α) (message : String) : Except String α :=
  match value with
  | some value => .ok value
  | none => .error message

/-- The places of the section headers and of the symbol table are taken from a 64-bit file. -/
def modinfoHeaderOf (bytes : Bytes) (index : Nat) : Except String Nat := do
  let field ← require (slice bytes 40 48) "truncated ELF header"
  if slice bytes 58 60 = some (encode 2 64) then
    if index * 64 ≤ usizeMax ∧ decode field + index * 64 ≤ usizeMax then return decode field + index * 64
    else .error "section header overflow"
  else .error "unsupported ELF section header size"

namespace ModuleImage

def parse (objectParse : Bytes → Except String ObjectFile) (bytes : Bytes) : Except String ModuleImage := do
  let file ← objectParse bytes
  if file.format ≠ .elf ∨ !file.is64 ∨ file.endianness ≠ .little ∨ file.architecture ≠ .aarch64 ∨
      file.kind ≠ .relocatable then
    .error "LKM loader requires a little-endian AArch64 ELF64 relocatable module"
  else do
    let modinfoSection ← require (file.sectionByName ".modinfo") "missing .modinfo"
    let alignment := max modinfoSection.align 1
    if halignment : alignment.isPowerOfTwo ∧ alignment ≤ 64 * 1024 * 1024 then do
      let modinfo ← modinfoSection.data
      let name ← metadataField modinfo "name="
      let vermagic ← metadataField modinfo "vermagic="
      if name = "" ∨ !(utf8 name).all isNameByte then .error "invalid module name"
      else do
        let header ← modinfoHeaderOf bytes modinfoSection.index
        match hheader : checkedRange bytes header 64 with
        | .error e => .error e
        | .ok _ => do
          let symtab ← require (file.sectionByName ".symtab") "missing .symtab"
          let range ← require symtab.fileRange "missing symbol data"
          match hrange : checkedRange bytes range.1 range.2 with
          | .error e => .error e
          | .ok _ =>
            match hundefined : collectUndefined range.1 range.2 file.symbols with
            | .error e => .error e
            | .ok undefined =>
              have hspec := collectUndefined_spec hundefined file.nodup
              have hle := checkedRange_le hrange
              .ok {
                bytes := bytes
                name := name
                vermagic := vermagic
                modinfoHeader := header
                modinfoAlignment := alignment
                modinfo := modinfo
                undefined := undefined
                header_le := checkedRange_le hheader
                alignment_power := halignment.1
                alignment_le := halignment.2
                undefined_le := fun entry he => (hspec.1 entry he).elim fun _ hs => Nat.le_trans hs.2.2 hle
                undefined_apart := hspec.2 }
    else .error "invalid module metadata alignment"

end ModuleImage

/-- Round up to a power of two in the words of the machine. -/
def alignUp (alignment sum : Nat) : Nat := (UInt64.ofNat sum &&& ~~~UInt64.ofNat (alignment - 1)).toNat

theorem testBit_not (m : UInt64) (i : Nat) :
    (~~~m).toNat.testBit i = (decide (i < 64) && !m.toNat.testBit i) := by
  have hnot : (~~~m).toNat = 2 ^ 64 - (m.toNat + 1) := by
    rw [UInt64.toNat_not, UInt64.size]
    omega
  rw [hnot, Nat.testBit_two_pow_sub_succ m.toNat_lt]

/-- Masking with a power of two less one clears the low bits. -/
theorem and_not_toNat {m : UInt64} {k : Nat} (h : m.toNat = 2 ^ k - 1) (x : UInt64) :
    (x &&& ~~~m).toNat = x.toNat / 2 ^ k * 2 ^ k := by
  apply Nat.eq_of_testBit_eq
  intro i
  have hhigh : 64 ≤ i → x.toNat.testBit i = false := by
    intro hi
    exact Nat.testBit_lt_two_pow (Nat.lt_of_lt_of_le x.toNat_lt (Nat.pow_le_pow_right (by omega) hi))
  rw [UInt64.toNat_and, Nat.testBit_and, testBit_not, h, Nat.testBit_two_pow_sub_one, Nat.testBit_mul_two_pow,
    Nat.testBit_div_two_pow]
  by_cases hk : k ≤ i
  · have hshift : i - k + k = i := by omega
    by_cases hi : i < 64
    · simp [hk, hi, hshift]
    · simp [hk, hshift, hhigh (by omega)]
  · have hlow : i < k := by omega
    simp [hk, hlow]

theorem alignUp_eq {alignment sum : Nat} (hp : alignment.isPowerOfTwo) (hle : alignment ≤ usizeMax)
    (hs : sum ≤ usizeMax) :
    alignUp alignment sum = sum / alignment * alignment := by
  obtain ⟨k, rfl⟩ := hp
  have hmask : (UInt64.ofNat (2 ^ k - 1)).toNat = 2 ^ k - 1 := by
    simp only [usizeMax] at hle
    rw [UInt64.toNat_ofNat', Nat.mod_eq_of_lt (by omega)]
  have hsum : (UInt64.ofNat sum).toNat = sum := by
    simp only [usizeMax] at hs
    rw [UInt64.toNat_ofNat', Nat.mod_eq_of_lt (by omega)]
  rw [alignUp, and_not_toNat hmask, hsum]

theorem alignUp_le {alignment length : Nat} (hp : alignment.isPowerOfTwo) (hle : alignment ≤ usizeMax)
    (hs : length + (alignment - 1) ≤ usizeMax) :
    length ≤ alignUp alignment (length + (alignment - 1)) ∧
    alignment ∣ alignUp alignment (length + (alignment - 1)) ∧
      alignUp alignment (length + (alignment - 1)) ≤ usizeMax := by
  have hpos := Nat.pos_of_isPowerOfTwo hp
  have hsplit := Nat.div_add_mod' (length + (alignment - 1)) alignment
  have hmod := Nat.mod_lt (length + (alignment - 1)) hpos
  rw [alignUp_eq hp hle hs]
  refine ⟨by omega, Nat.dvd_mul_left _ _, by omega⟩

def isVermagic (entry : Bytes) : Bool := (utf8 "vermagic=").isPrefixOf entry

def vermagicEntry (required : String) : Bytes := utf8 "vermagic=" ++ utf8 required

/-- The non-empty entries of some metadata. -/
def namedEntries (modinfo : Bytes) : List Bytes := (metadataEntries modinfo).filter (· ≠ [])

/-- The metadata with one vermagic entry in the place of all of them. -/
def patchedMetadata (modinfo : Bytes) (required : String) : Bytes :=
  ((namedEntries modinfo).filter (!isVermagic ·)).flatMap (· ++ [0]) ++ (vermagicEntry required ++ [0])

def invalidVermagic (required : String) : Bool :=
  required = "" || 512 < (utf8 required).length || (utf8 required).any fun byte => byte = 0 || byte = 0x0A

def resize (bytes : Bytes) (length : Nat) : Bytes :=
  bytes.take length ++ List.replicate (length - bytes.length) 0

/-- Put the metadata behind an image which ends at its place, and point the section header there. -/
def relink (bytes : Bytes) (header : Nat) (metadata : Bytes) : Bytes :=
  overwrite (overwrite (bytes ++ metadata) (header + 24) (encode 8 bytes.length)) (header + 32)
    (encode 8 metadata.length)

theorem length_relink {bytes : Bytes} {header : Nat} (h : header + 64 ≤ bytes.length) (metadata : Bytes) :
    (relink bytes header metadata).length = bytes.length + metadata.length := by
  have hfirst : (overwrite (bytes ++ metadata) (header + 24) (encode 8 bytes.length)).length =
      bytes.length + metadata.length := by
    rw [length_overwrite, List.length_append]
    rw [length_encode, List.length_append]
    omega
  rw [relink, length_overwrite, hfirst]
  rw [length_encode, hfirst]
  omega

theorem length_resize {bytes : Bytes} {length : Nat} (h : bytes.length ≤ length) :
    (resize bytes length).length = length := by
  rw [resize, List.length_append, List.length_take, List.length_replicate]
  omega

namespace ModuleImage

variable (image : ModuleImage)

theorem alignment_max : image.modinfoAlignment ≤ usizeMax := by
  have hle := image.alignment_le
  simp only [usizeMax]
  omega

def patchVermagic (required : String) : Except String ModuleImage :=
  if invalidVermagic required then .error "invalid requested vermagic"
  else
    let metadata := patchedMetadata image.modinfo required
    if hsum : image.bytes.length + (image.modinfoAlignment - 1) ≤ usizeMax then
      let start := alignUp image.modinfoAlignment (image.bytes.length + (image.modinfoAlignment - 1))
      -- a longer vector cannot be allocated
      if start + metadata.length ≤ isizeMax then
        have hstart : image.bytes.length ≤ start :=
          (alignUp_le image.alignment_power image.alignment_max hsum).1
        have hheader : image.modinfoHeader + 64 ≤ (resize image.bytes start).length := by
          rw [length_resize hstart]
          exact Nat.le_trans image.header_le hstart
        have hlength : image.bytes.length ≤
            (relink (resize image.bytes start) image.modinfoHeader metadata).length := by
          rw [length_relink hheader _, length_resize hstart]
          omega
        .ok { image with
          bytes := relink (resize image.bytes start) image.modinfoHeader metadata
          vermagic := required
          header_le := Nat.le_trans image.header_le hlength
          undefined_le := fun symbol hs => Nat.le_trans (image.undefined_le symbol hs) hlength }
      else .error "capacity overflow"
    else .error "module size overflow"

end ModuleImage

end Lkm

end HybridMount
