import HybridMount.SaturatingWord

/-! The size of the ext4 staging image: what is counted of the prepared tree, the planned size
and the block size it is formatted with. Plain arithmetic has no result where it would trap. -/

namespace HybridMount

open SaturatingWord

namespace Ext4

def minImageSizeBytes : UInt64 := 64 * 1024 * 1024

def fixedHeadroomBytes : UInt64 := 16 * 1024 * 1024

def growthNumerator : UInt64 := 5

def growthDenominator : UInt64 := 4

def blockSizeBytes : UInt64 := 1024

def largeBlockSizeBytes : UInt64 := 4096

def blocksPerGroupFactor : UInt64 := 8

def max1kBlockGroups : UInt64 := 32

def imageAlignmentBytes : UInt64 := 4 * 1024 * 1024

def bytesPerInode : UInt64 := 4096

def roundUp (value alignment : UInt64) : Option UInt64 :=
  if alignment = 0 then some value
  else do
    let remainder ← checkedRem value alignment
    if remainder = 0 then some value
    else do
      let gap ← checkedSub alignment remainder
      some (saturatingAdd value gap)

def multiplyRatioCeil (value numerator denominator : UInt64) : Option UInt64 :=
  if denominator = 0 then some (clamp top)
  else do
    let parts ← checkedDiv value denominator
    let whole := saturatingMul parts numerator
    let remainder ← checkedRem value denominator
    let padding ← checkedSub denominator 1
    let fractional ← checkedDiv (saturatingAdd (saturatingMul remainder numerator) padding) denominator
    some (saturatingAdd whole fractional)

structure SizeCounter where
  dataBytes : UInt64 := 0
  entries : UInt64 := 0
  deriving DecidableEq

namespace SizeCounter

def addFile (counter : SizeCounter) (logicalSize : UInt64) : Option SizeCounter := do
  let rounded ← roundUp logicalSize blockSizeBytes
  some ⟨saturatingAdd counter.dataBytes rounded, saturatingAdd counter.entries 1⟩

def addMetadataEntry (counter : SizeCounter) : SizeCounter :=
  { counter with entries := saturatingAdd counter.entries 1 }

end SizeCounter

def blockGroupSizeBytes (blockSize : UInt64) : UInt64 :=
  saturatingMul (saturatingMul blockSize blockSize) blocksPerGroupFactor

def blockGroupCount (imageSize blockSize : UInt64) : Option UInt64 :=
  let groupSize := blockGroupSizeBytes blockSize
  if groupSize = 0 then some (clamp top)
  else do
    let groups ← checkedDiv imageSize groupSize
    some (if groupSize.toNat ∣ imageSize.toNat then groups else saturatingAdd groups 1)

def selectBlockSize (imageSize : UInt64) : Option UInt64 := do
  let groups ← blockGroupCount imageSize blockSizeBytes
  some (if groups ≤ max1kBlockGroups then blockSizeBytes else largeBlockSizeBytes)

def plannedImageSize (dataBytes entries : UInt64) : Option UInt64 := do
  let grown ← multiplyRatioCeil dataBytes growthNumerator growthDenominator
  let dataRequirement := saturatingAdd grown fixedHeadroomBytes
  let inodes ← multiplyRatioCeil entries growthNumerator growthDenominator
  let inodeRequirement := saturatingMul inodes bytesPerInode
  roundUp (max (max dataRequirement inodeRequirement) minImageSizeBytes) imageAlignmentBytes

/-- What the size scan meets in the prepared tree. -/
inductive PreparedEntry where
  | file (logicalSize : UInt64)
  | directory
  | other
  deriving DecidableEq, Repr

def countEntry (counter : SizeCounter) : PreparedEntry → Option SizeCounter
  | .file logicalSize => counter.addFile logicalSize
  | .directory => some counter.addMetadataEntry
  | .other => some counter.addMetadataEntry

def count (entries : List PreparedEntry) : Option SizeCounter := entries.foldlM countEntry {}

structure ImagePlan where
  size : UInt64
  blockSize : UInt64
  deriving DecidableEq

def planImage (entries : List PreparedEntry) : Option ImagePlan := do
  let usage ← count entries
  let size ← plannedImageSize usage.dataBytes usage.entries
  let blockSize ← selectBlockSize size
  some ⟨size, blockSize⟩

/-- The blocks of files and directories take this many bytes in an image of that block size. -/
def footprint (blockSize : Nat) : PreparedEntry → Nat
  | .file logicalSize => ceilTo blockSize logicalSize.toNat
  | .directory => blockSize
  | .other => 0

def totalFootprint (blockSize : Nat) (entries : List PreparedEntry) : Nat :=
    (entries.map (footprint blockSize)).sum

/-- What the counter adds up for an entry. -/
def counted : PreparedEntry → Nat
  | .file logicalSize => ceilTo 1024 logicalSize.toNat
  | .directory => 0
  | .other => 0

def totalCounted (entries : List PreparedEntry) : Nat := (entries.map counted).sum

theorem roundUp_eq {alignment : UInt64} (h : alignment ≠ 0) (value : UInt64) :
    roundUp value alignment = some (clamp (ceilTo alignment.toNat value.toNat)) := by
  have hpos : 0 < alignment.toNat := by
    have hne : alignment.toNat ≠ 0 := fun hz => h (UInt64.toNat.inj hz)
    omega
  have hrem : checkedRem value alignment = some (value % alignment) := by
    rw [checkedRem, if_neg h]
  have hmod : (value % alignment).toNat = value.toNat % alignment.toNat := UInt64.toNat_mod ..
  rw [roundUp, if_neg h, hrem]
  by_cases hz : value % alignment = 0
  · have hdvd : alignment.toNat ∣ value.toNat := by
      rw [hz] at hmod
      exact Nat.dvd_of_mod_eq_zero hmod.symm
    simp only [Option.bind_eq_bind, Option.bind_some, hz, if_true, ceilTo_of_dvd hdvd, clamp_toNat]
  · have hne : value.toNat % alignment.toNat ≠ 0 := by
      rw [← hmod]
      exact fun hh => hz (UInt64.toNat.inj hh)
    have hlt := Nat.mod_lt value.toNat hpos
    have hle : value % alignment ≤ alignment := by
      rw [UInt64.le_iff_toNat_le, hmod]
      omega
    have hgap : (alignment - value % alignment).toNat = alignment.toNat - value.toNat % alignment.toNat := by
      rw [UInt64.toNat_sub_of_le _ _ hle, hmod]
    simp only [Option.bind_eq_bind, Option.bind_some, if_neg hz, checkedSub, if_pos hle, saturatingAdd, hgap]
    rw [ceilTo_eq_add hpos hne]

/-- A quarter more, rounded up. -/
def grow (n : Nat) : Nat := n + (n + 3) / 4

theorem multiplyRatioCeil_eq (n : Nat) :
    multiplyRatioCeil (clamp n) growthNumerator growthDenominator = some (clamp (grow n)) := by
  have hv : (clamp n).toNat = min n top := toNat_clamp n
  have hdiv : checkedDiv (clamp n) 4 = some (clamp n / 4) := rfl
  have hrem : checkedRem (clamp n) 4 = some (clamp n % 4) := rfl
  have hpad : checkedSub 4 1 = some 3 := rfl
  have hquot : (clamp n / 4).toNat = min n top / 4 := by rw [UInt64.toNat_div, hv]; rfl
  have hmod : (clamp n % 4).toNat = min n top % 4 := by rw [UInt64.toNat_mod, hv]; rfl
  have hpart : checkedDiv (saturatingAdd (saturatingMul (clamp n % 4) 5) 3) 4 =
      some (saturatingAdd (saturatingMul (clamp n % 4) 5) 3 / 4) := rfl
  have hfrac : saturatingAdd (saturatingMul (clamp n % 4) 5) 3 / 4 = clamp ((min n top % 4 * 5 + 3) / 4) := by
    have hfive : saturatingMul (clamp n % 4) 5 = clamp (min n top % 4 * 5) := by
      rw [saturatingMul, hmod]
      rfl
    have hthree : (3 : UInt64) = clamp 3 := by decide +kernel
    have hfour : (4 : UInt64).toNat = 4 := rfl
    rw [hfive, hthree, saturatingAdd_clamp]
    apply UInt64.toNat.inj
    have hsmall : min n top % 4 * 5 + 3 ≤ top := by
      simp only [top]
      omega
    rw [UInt64.toNat_div, toNat_clamp, toNat_clamp, min_eq_left hsmall, hfour]
    omega
  have hwhole : saturatingMul (clamp n / 4) 5 = clamp (min n top / 4 * 5) := by
    rw [saturatingMul, hquot]
    rfl
  have hden : growthDenominator ≠ 0 := by decide
  rw [multiplyRatioCeil, if_neg hden]
  simp only [growthDenominator, growthNumerator, hdiv, hrem, hpad, hpart, hfrac, hwhole, Option.bind_eq_bind,
    Option.bind_some,
    saturatingAdd_clamp]
  refine congrArg some (UInt64.toNat.inj ?_)
  simp only [toNat_clamp, grow]
  omega

/-- The size which is asked for, before it is rounded to the alignment. -/
def wanted (dataBytes entries : Nat) : Nat :=
    max (max (grow dataBytes + 16777216) (grow entries * 4096)) 67108864

theorem plannedImageSize_of {dataBytes entries grown inodes : UInt64}
    (hdata : multiplyRatioCeil dataBytes growthNumerator growthDenominator = some grown)
    (hentries : multiplyRatioCeil entries growthNumerator growthDenominator = some inodes) :
    plannedImageSize dataBytes entries =
      roundUp (max (max (saturatingAdd grown fixedHeadroomBytes) (saturatingMul inodes bytesPerInode))
        minImageSizeBytes)
        imageAlignmentBytes := by
  rw [plannedImageSize, hdata, Option.bind_eq_bind, Option.bind_some]
  dsimp only
  rw [hentries, Option.bind_some]

theorem plannedImageSize_eq (dataBytes entries : Nat) :
    plannedImageSize (clamp dataBytes) (clamp entries) = some
      (clamp (ceilTo 4194304 (wanted dataBytes entries))) := by
  have hhead : fixedHeadroomBytes = clamp 16777216 := by decide +kernel
  have hinode : bytesPerInode = clamp 4096 := by decide +kernel
  have hmin : minImageSizeBytes = clamp 67108864 := by decide +kernel
  have halign : imageAlignmentBytes ≠ 0 := by decide +kernel
  have hbytes : imageAlignmentBytes.toNat = 4194304 := by decide +kernel
  have hmul : saturatingMul (clamp (grow entries)) (clamp 4096) = clamp (grow entries * 4096) :=
    saturatingMul_clamp (by omega) (by simp only [top]; omega) _
  rw [plannedImageSize_of (multiplyRatioCeil_eq dataBytes) (multiplyRatioCeil_eq entries), hhead, hinode,
    hmin, saturatingAdd_clamp, hmul, max_clamp, max_clamp]
  rw [roundUp_eq halign, hbytes, toNat_clamp, clamp_ceilTo_min (by omega)]
  rfl

theorem selectBlockSize_eq (size : UInt64) :
    selectBlockSize size = some (if size.toNat ≤ 268435456 then 1024 else 4096) := by
  have hgroup : blockGroupSizeBytes blockSizeBytes = 8388608 := by decide +kernel
  have hbytes : (8388608 : UInt64).toNat = 8388608 := by decide +kernel
  have hdiv : checkedDiv size 8388608 = some (size / 8388608) := rfl
  have hquot : (size / 8388608).toNat = size.toNat / 8388608 := by rw [UInt64.toNat_div, hbytes]
  have hnz : (8388608 : UInt64) ≠ 0 := by decide
  have hlt := toNat_le_top size
  simp only [top] at hlt
  rw [selectBlockSize, blockGroupCount, hgroup, if_neg hnz, hdiv]
  simp only [Option.bind_eq_bind, Option.bind_some, hbytes]
  refine congrArg some (if_congr ?_ rfl rfl)
  have hmax : max1kBlockGroups.toNat = 32 := by decide +kernel
  have hone : (1 : UInt64).toNat = 1 := rfl
  rw [UInt64.le_iff_toNat_le, hmax]
  by_cases hd : 8388608 ∣ size.toNat
  · rw [if_pos hd, hquot]
    omega
  · rw [if_neg hd, saturatingAdd, toNat_clamp, hquot, hone]
    simp only [top]
    omega

theorem countEntry_eq (data entries : Nat) (entry : PreparedEntry) :
    countEntry ⟨clamp data, clamp entries⟩ entry = some
      ⟨clamp (data + counted entry), clamp (entries + 1)⟩ := by
  have hone : (1 : UInt64) = clamp 1 := rfl
  cases entry with
  | file logicalSize =>
    have hblock : blockSizeBytes ≠ 0 := by decide
    have hbytes : blockSizeBytes.toNat = 1024 := rfl
    rw [countEntry, SizeCounter.addFile, roundUp_eq hblock, hbytes, hone]
    simp only [Option.bind_eq_bind, Option.bind_some, saturatingAdd_clamp, counted]
  | directory => rw [countEntry, SizeCounter.addMetadataEntry, hone, saturatingAdd_clamp]; rfl
  | other => rw [countEntry, SizeCounter.addMetadataEntry, hone, saturatingAdd_clamp]; rfl

theorem foldlM_countEntry (prepared : List PreparedEntry) (data entries : Nat) :
    prepared.foldlM countEntry ⟨clamp data, clamp entries⟩ =
      some ⟨clamp (data + totalCounted prepared), clamp (entries + prepared.length)⟩ := by
  induction prepared generalizing data entries with
  | nil => rfl
  | cons entry prepared ih =>
    have hsum : data + counted entry + totalCounted prepared = data + totalCounted (entry :: prepared) := by
      simp only [totalCounted, List.map_cons, List.sum_cons]
      omega
    have hlength : entries + 1 + prepared.length = entries + (entry :: prepared).length := by
      rw [List.length_cons]
      omega
    rw [List.foldlM_cons, countEntry_eq, Option.bind_eq_bind, Option.bind_some, ih, hsum, hlength]

variable {entries larger : List PreparedEntry}

theorem count_eq (entries : List PreparedEntry) :
    count entries = some ⟨clamp (totalCounted entries), clamp entries.length⟩ := by
  have hfold := foldlM_countEntry entries 0 0
  rw [Nat.zero_add, Nat.zero_add] at hfold
  exact hfold

/-- What is asked for the whole tree. -/
def wantedFor (entries : List PreparedEntry) : Nat := wanted (totalCounted entries) entries.length

theorem planImage_eq (entries : List PreparedEntry) :
    planImage entries =
      some ⟨clamp (ceilTo 4194304 (wantedFor entries)), if wantedFor entries ≤ 268435456 then 1024
        else 4096⟩ := by
  have hsmall : (clamp (ceilTo 4194304 (wantedFor entries))).toNat ≤ 268435456 ↔
      wantedFor entries ≤ 268435456 := by
    simp only [toNat_clamp, ceilTo, top]
    omega
  rw [planImage, count_eq, Option.bind_eq_bind, Option.bind_some, plannedImageSize_eq, Option.bind_eq_bind,
    Option.bind_some, selectBlockSize_eq]
  have hwanted : wanted (totalCounted entries) entries.length = wantedFor entries := rfl
  simp only [Option.bind_some, hwanted, hsmall]

/-- An entry of the same kind, for a file of at most the same size. -/
inductive PreparedEntry.Within : PreparedEntry → PreparedEntry → Prop
  | file {small large : UInt64} (h : small ≤ large) : Within (file small) (file large)
  | directory : Within directory directory
  | other : Within other other

/-- More entries or larger files, in whatever order. -/
def Below (entries larger : List PreparedEntry) : Prop :=
  ∃ grown, grown.Perm larger ∧ List.SublistForall₂ PreparedEntry.Within entries grown

theorem counted_mono {small large : PreparedEntry} (h : small.Within large) :
    counted small ≤ counted large := by
  cases h with
  | file h => exact ceilTo_mono (UInt64.le_iff_toNat_le.mp h)
  | directory => exact Nat.le_refl _
  | other => exact Nat.le_refl _

theorem totalCounted_mono (h : Below entries larger) :
    totalCounted entries ≤ totalCounted larger ∧ entries.length ≤ larger.length := by
  obtain ⟨grown, hperm, hsub⟩ := h
  have hsum : totalCounted grown = totalCounted larger := (hperm.map counted).sum_eq
  rw [← hsum, ← hperm.length_eq]
  clear hperm hsum
  induction hsub with
  | nil => exact ⟨Nat.zero_le _, Nat.zero_le _⟩
  | cons hwithin _ ih =>
    have hentry := counted_mono hwithin
    simp only [totalCounted, List.map_cons, List.sum_cons, List.length_cons] at ih ⊢
    omega
  | cons_right _ ih =>
    simp only [totalCounted, List.map_cons, List.sum_cons, List.length_cons] at ih ⊢
    omega

theorem wantedFor_mono (h : Below entries larger) : wantedFor entries ≤ wantedFor larger := by
  obtain ⟨hdata, hlength⟩ := totalCounted_mono h
  simp only [wantedFor, wanted, grow]
  omega

/-- The image takes the whole tree, and its size depends on the tree as it should. -/
structure LargeEnough (entries : List PreparedEntry) (plan : ImagePlan) : Prop where
  blocks : plan.size = clamp top ∨ totalFootprint plan.blockSize.toNat entries ≤ plan.size.toNat
  inodes : entries.length ≤ plan.size.toNat / bytesPerInode.toNat
  aligned : plan.size = clamp top ∨ imageAlignmentBytes.toNat ∣ plan.size.toNat
  monotone : ∀ larger plan', Below entries larger → planImage larger = some plan' → plan.size ≤ plan'.size

theorem totalFootprint_small (entries : List PreparedEntry) :
    totalFootprint 1024 entries ≤ totalCounted entries + 1024 * entries.length := by
  induction entries with
  | nil => exact Nat.le_refl _
  | cons entry entries ih =>
    have hentry : footprint 1024 entry ≤ counted entry + 1024 := by
      cases entry with
      | file logicalSize => exact Nat.le_add_right _ _
      | directory => exact Nat.le_refl _
      | other => exact Nat.zero_le _
    simp only [totalFootprint, totalCounted, List.map_cons, List.sum_cons, List.length_cons] at ih ⊢
    omega

theorem size_mono (h : Below entries larger) :
    clamp (ceilTo 4194304 (wantedFor entries)) ≤ clamp (ceilTo 4194304 (wantedFor larger)) :=
  clamp_mono (ceilTo_mono (wantedFor_mono h))

theorem room_small (entries : List PreparedEntry) :
    totalFootprint 1024 entries ≤ ceilTo 4194304 (wantedFor entries) := by
  have hneed := totalFootprint_small entries
  have hle : wantedFor entries ≤ ceilTo 4194304 (wantedFor entries) := le_ceilTo (by omega)
  have hwanted : totalCounted entries + 1024 * entries.length ≤ wantedFor entries := by
    simp only [wantedFor, wanted, grow]
    omega
  omega

theorem inodes_iff (entries : List PreparedEntry) :
    entries.length ≤ min (ceilTo 4194304 (wantedFor entries)) top / 4096 ↔ entries.length < 2 ^ 52 := by
  have hle : wantedFor entries ≤ ceilTo 4194304 (wantedFor entries) := le_ceilTo (by omega)
  have hinodes : 4096 * entries.length ≤ wantedFor entries := by
    simp only [wantedFor, wanted, grow]
    omega
  simp only [top]
  omega

theorem small_iff (entries : List PreparedEntry) :
    wantedFor entries ≤ 268435456 ↔ totalCounted entries ≤ 201326592 ∧ entries.length ≤ 52428 := by
  simp only [wantedFor, wanted, grow]
  omega

theorem saturated_iff (n : Nat) : top ≤ ceilTo 4194304 n ↔ 2 ^ 64 - 2 ^ 22 < n := by
  simp only [ceilTo, top]
  omega

theorem aligned_or_saturated (n : Nat) :
    clamp (ceilTo 4194304 n) = clamp top ∨ 4194304 ∣ (clamp (ceilTo 4194304 n)).toNat := by
  by_cases h : top ≤ ceilTo 4194304 n
  · exact Or.inl (clamp_eq_top_iff.mpr h)
  · right
    rw [toNat_clamp, min_eq_left (by omega)]
    exact dvd_ceilTo _ _

/-- When the blocks fit is decided by the block size that is chosen. -/
theorem blocks_iff (entries : List PreparedEntry) :
    (clamp (ceilTo 4194304 (wantedFor entries)) = clamp top ∨
      totalFootprint (if wantedFor entries ≤ 268435456 then 1024 else 4096 : UInt64).toNat entries ≤
        (clamp (ceilTo 4194304 (wantedFor entries))).toNat) ↔
      (2 ^ 64 - 2 ^ 22 < wantedFor entries ∨
        totalCounted entries ≤ 201326592 ∧ entries.length ≤ 52428 ∨
        totalFootprint 4096 entries ≤ ceilTo 4194304 (wantedFor entries)) := by
  rw [clamp_eq_top_iff, saturated_iff, ← small_iff]
  by_cases hsat : 2 ^ 64 - 2 ^ 22 < wantedFor entries
  · simp only [hsat, true_or]
  · have htop : ceilTo 4194304 (wantedFor entries) ≤ top := by
      have hiff := saturated_iff (wantedFor entries)
      omega
    rw [toNat_clamp, min_eq_left htop]
    by_cases hsmall : wantedFor entries ≤ 268435456
    · have hroom := room_small entries
      have hbytes : (1024 : UInt64).toNat = 1024 := rfl
      simp only [hsmall, if_true, hbytes, hroom, true_or, or_true]
    · have hbytes : (4096 : UInt64).toNat = 4096 := rfl
      simp only [hsmall, if_false, hbytes, false_or]

/-- The planned image is large enough for exactly the trees which ask for more than a word holds,
fit an image with 1 KiB blocks, or have their blocks of 4 KiB within what is asked for. -/
theorem image_large_enough_iff (entries : List PreparedEntry) :
    (∃ plan, planImage entries = some plan ∧ LargeEnough entries plan) ↔
      entries.length < 2 ^ 52 ∧
      (2 ^ 64 - 2 ^ 22 < wantedFor entries ∨
        totalCounted entries ≤ 201326592 ∧ entries.length ≤ 52428 ∨
        totalFootprint 4096 entries ≤ ceilTo 4194304 (wantedFor entries)) := by
  have hplan := planImage_eq entries
  rw [← inodes_iff, ← blocks_iff]
  constructor
  · rintro ⟨plan, hp, hlarge⟩
    obtain rfl := Option.some.inj (hplan.symm.trans hp)
    have hinodes := hlarge.inodes
    rw [toNat_clamp] at hinodes
    exact ⟨hinodes, hlarge.blocks⟩
  · rintro ⟨hinodes, hblocks⟩
    refine ⟨_, hplan, hblocks, ?_, aligned_or_saturated _, ?_⟩
    · rw [toNat_clamp]
      exact hinodes
    · intro larger plan' hbelow hplan'
      obtain rfl := Option.some.inj ((planImage_eq larger).symm.trans hplan')
      exact size_mono hbelow

/-- Files of one byte more than a large block. -/
theorem image_too_small :
    ¬ ∃ plan, planImage (List.replicate 40000 (.file 4097)) = some plan ∧
      LargeEnough (List.replicate 40000 (.file 4097)) plan := by
  have hcounted : totalCounted (List.replicate 40000 (.file 4097)) = 204800000 := by
    rw [totalCounted, List.map_replicate, List.sum_replicate]
    rfl
  have hfootprint : totalFootprint 4096 (List.replicate 40000 (.file 4097)) = 327680000 := by
    rw [totalFootprint, List.map_replicate, List.sum_replicate]
    rfl
  have hwanted : wantedFor (List.replicate 40000 (.file 4097)) = 272777216 := by
    rw [wantedFor, hcounted, List.length_replicate]
    rfl
  rintro ⟨plan, hplan, hlarge⟩
  rw [planImage_eq, hwanted] at hplan
  obtain rfl := Option.some.inj hplan
  have hbytes : (4096 : UInt64).toNat = 4096 := rfl
  rcases hlarge.blocks with hsat | hroom
  · rw [clamp_eq_top_iff] at hsat
    simp only [top, ceilTo] at hsat
    omega
  · rw [if_neg (by omega), hbytes, hfootprint, toNat_clamp] at hroom
    simp only [top, ceilTo] at hroom
    omega

end Ext4

end HybridMount
