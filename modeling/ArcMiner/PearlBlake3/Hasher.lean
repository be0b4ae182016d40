import ArcMiner.Library.Blake3
import ArcMiner.Library.Rust

/-! `Blake3Hasher`, the hasher of pearl-blake3.

It delegates every compression to the `blake3` crate, which is a parameter here.
`Blake3Crate.Conforms` states what the crate documents for the calls this hasher
makes: keyed mode, inputs of at most one chunk for `finalize_non_root`, and the
chunk flags for `hash_many`.
-/

namespace ArcMiner.PearlBlake3

open Library UInt64 Blake3

inductive Mode where
  | hash
  | keyedHash (key : Digest)
deriving DecidableEq

def Mode.spec : Mode → Blake3.Mode
  | .hash => .unkeyed
  | .keyedHash key => .keyed key

structure Blake3Crate where
  finalize : Mode → List UInt8 → Digest
  /-- `set_input_offset(offset)`, `update(data)` and `finalize_non_root()`. -/
  finalizeNonRoot : Mode → UInt64 → List UInt8 → Digest
  mergeSubtreesNonRoot : Digest → Digest → Mode → Digest
  mergeSubtreesRoot : Digest → Digest → Mode → Digest
  /-- `hash_many` with `IncrementCounter::Yes`, its output read 32 bytes at a time. -/
  hashMany : List (List UInt8) → Vector UInt32 8 → UInt64 → UInt8 → UInt8 → UInt8 → List Digest

def chunkFlagStart : UInt8 := 1
def chunkFlagEnd : UInt8 := 2
def keyedFlag : UInt8 := 16

structure Blake3Crate.Conforms (crate : Blake3Crate) : Prop where
  finalize : ∀ mode data, crate.finalize mode data = treeHash mode.spec data
  finalizeNonRoot : ∀ mode (counter : UInt64) data, counter.toNat < 2 ^ 54 →
    0 < data.length → data.length ≤ 1024 →
    crate.finalizeNonRoot mode (counter * 1024) data = chunkCv mode.spec counter data
  mergeSubtreesNonRoot : ∀ mode left right,
    crate.mergeSubtreesNonRoot left right mode = parentCv mode.spec left right
  mergeSubtreesRoot : ∀ mode left right,
    crate.mergeSubtreesRoot left right mode = rootCv mode.spec left right
  hashMany : ∀ chunks keyWords counter flags, (∀ c ∈ chunks, c.length = 1024) →
    crate.hashMany chunks keyWords counter flags chunkFlagStart chunkFlagEnd =
      chunks.mapIdx fun i c =>
        chunkCv ⟨.ofWords keyWords, flags.toUInt32⟩ (counter + i.toUInt64) c

/-- A crate that computes what `blake3` documents. -/
def Blake3Crate.reference : Blake3Crate where
  finalize mode data := treeHash mode.spec data
  finalizeNonRoot mode offset data := chunkCv mode.spec (offset / 1024) data
  mergeSubtreesNonRoot left right mode := parentCv mode.spec left right
  mergeSubtreesRoot left right mode := rootCv mode.spec left right
  hashMany chunks keyWords counter flags _ _ :=
    chunks.mapIdx fun i c => chunkCv ⟨.ofWords keyWords, flags.toUInt32⟩ (counter + i.toUInt64) c

theorem Blake3Crate.reference_conforms : Blake3Crate.reference.Conforms where
  finalize _ _ := rfl
  finalizeNonRoot mode counter data small _ _ := by
    have exact : counter * 1024 / 1024 = counter := by
      apply UInt64.toNat_inj.mp
      simp only [UInt64.toNat_div, UInt64.toNat_mul, reduceToNat]
      omega
    show chunkCv mode.spec (counter * 1024 / 1024) data = _
    rw [exact]
  mergeSubtreesNonRoot _ _ _ := rfl
  mergeSubtreesRoot _ _ _ := rfl
  hashMany _ _ _ _ _ := rfl

def keyToWords (key : Digest) : Vector UInt32 8 := Vector.ofFn fun i => leWordAt key.toList (4 * i.val)

structure Blake3Hasher where
  key : Option Digest
  keyWords : Vector UInt32 8
  baseFlags : UInt8

def chunkLen : Nat := 1024
def chunksPerSegment : Nat := 64
def bytesPerSegment : Nat := chunksPerSegment * chunkLen

def divCeil (n d : Nat) : Nat := (n + d - 1) / d

namespace Blake3Hasher

def new : Blake3Hasher where
  key := none
  keyWords :=
    ⟨#[0x6A09E667, 0xBB67AE85, 0x3C6EF372, 0xA54FF53A, 0x510E527F, 0x9B05688C, 0x1F83D9AB, 0x5BE0CD19], by decide⟩
  baseFlags := 0

def withKey (key : Digest) : Blake3Hasher := ⟨some key, keyToWords key, keyedFlag⟩

variable (crate : Blake3Crate) (self : Blake3Hasher)

def mode : Mode :=
  match self.key with
  | some k => .keyedHash k
  | none => .hash

def hash (data : List UInt8) : Digest := crate.finalize self.mode data

/-- The offset is computed in `u64` and wraps. -/
def chunkCv (data : List UInt8) (chunkIndex : UInt64) : Digest :=
  crate.finalizeNonRoot self.mode (chunkIndex * 1024) data

def parentCv (left right : Digest) : Digest := crate.mergeSubtreesNonRoot left right self.mode

def rootCv (left right : Digest) : Digest := crate.mergeSubtreesRoot left right self.mode

def combineLayer (prev : List Digest) : List Digest :=
  pairUp (fun left right => crate.mergeSubtreesNonRoot left right self.mode) prev

def processSegment (data : List UInt8) (segIdx : Nat) (cvSlice : List Digest) : List Digest :=
  let startChunk := segIdx * chunksPerSegment
  let startByte := startChunk * chunkLen
  let endByte := min ((segIdx + 1) * bytesPerSegment) data.length
  let segmentData := (data.take endByte).drop startByte
  let numFull := segmentData.length / chunkLen
  let fullChunks := tabulate (chunkAt segmentData) numFull
  let lastChunk := segmentData.drop (numFull * chunkLen)
  let cvSlice :=
    if fullChunks.isEmpty then cvSlice
    else
      crate.hashMany fullChunks self.keyWords startChunk.toUInt64 self.baseFlags chunkFlagStart chunkFlagEnd
        ++ cvSlice.drop numFull
  if lastChunk.isEmpty then cvSlice
  else cvSlice.set numFull
    (crate.finalizeNonRoot self.mode ((startChunk + numFull).toUInt64 * 1024) lastChunk)

/-- The segments own disjoint parts of the result, so their order is immaterial. -/
def hashChunks (data : List UInt8) : List Digest :=
  if data.isEmpty then []
  else
    let numChunks := divCeil data.length chunkLen
    (List.range (divCeil numChunks chunksPerSegment)).flatMap fun segIdx =>
      processSegment crate self data segIdx
        (List.replicate (min chunksPerSegment (numChunks - segIdx * chunksPerSegment)) (Vector.replicate 32 0))

end Blake3Hasher

section
variable {crate : Blake3Crate} (conforms : crate.Conforms) (key : Digest)
include conforms

theorem chunkCv_eq {data : List UInt8} {i : UInt64} (small : i.toNat < 2 ^ 54) (positive : 0 < data.length)
    (single : data.length ≤ 1024) :
    (Blake3Hasher.withKey key).chunkCv crate data i = chunkCv (.keyed key) i data :=
  conforms.finalizeNonRoot (.keyedHash key) i data small positive single

theorem parentCv_eq : (Blake3Hasher.withKey key).parentCv crate = parentCv (.keyed key) := by
  funext left right
  exact conforms.mergeSubtreesNonRoot (.keyedHash key) left right

theorem rootCv_eq : (Blake3Hasher.withKey key).rootCv crate = rootCv (.keyed key) := by
  funext left right
  exact conforms.mergeSubtreesRoot (.keyedHash key) left right

theorem hash_eq (data : List UInt8) : (Blake3Hasher.withKey key).hash crate data = treeHash (.keyed key) data :=
  conforms.finalize (.keyedHash key) data

theorem chunkCv_chunkAt (self : Blake3Hasher) {data : List UInt8} (fits : data.length < 2 ^ 63) {i : Nat}
    (bound : i < chunkCount data.length) :
    self.chunkCv crate (chunkAt data i) i.toUInt64 = chunkCvAt self.mode.spec data i := by
  have length := length_chunkAt data i
  simp only [chunkCount] at bound
  refine conforms.finalizeNonRoot self.mode i.toUInt64 (chunkAt data i) ?_ (by omega) (by omega)
  simp only [Nat.toUInt64, toNat_ofNat']
  omega

omit conforms in
theorem withKey_words : (⟨.ofWords (keyToWords key), keyedFlag.toUInt32⟩ : Blake3.Mode) = .keyed key := by
  rw [keyToWords, Blake3.Cv.ofWords_leWordAt]
  rfl

variable {self : Blake3Hasher} (words : (⟨.ofWords self.keyWords, self.baseFlags.toUInt32⟩ : Blake3.Mode) = self.mode.spec)
include words

theorem hashMany_eq {segment : List UInt8} {data : List UInt8} {first count : Nat}
    (inside : 1024 * count ≤ segment.length) (same : ∀ i < count, chunkAt segment i = chunkAt data (first + i)) :
    crate.hashMany (tabulate (chunkAt segment) count) self.keyWords first.toUInt64 self.baseFlags
      chunkFlagStart chunkFlagEnd = tabulate (fun i => chunkCvAt self.mode.spec data (first + i)) count := by
  rw [conforms.hashMany, mapIdx_tabulate]
  · apply tabulate_congr
    intro i bound
    have counter := (ofNat_add first i).symm
    simp only [words, chunkCvAt, same i bound, counter]
  · intro chunk member
    obtain ⟨i, List.range, rfl⟩ := List.mem_map.mp member
    have bound := List.mem_range.mp List.range
    rw [length_chunkAt]
    omega

theorem processSegment_eq (data : List UInt8) (fits : data.length < 2 ^ 63) (segIdx : Nat)
    (cvSlice : List Digest) (size : cvSlice.length = min 64 (chunkCount data.length - segIdx * 64)) :
    self.processSegment crate data segIdx cvSlice =
      tabulate (fun i => chunkCvAt self.mode.spec data (segIdx * 64 + i)) cvSlice.length := by
  let stop := min ((segIdx + 1) * 65536) data.length
  let segment := (data.take stop).drop (1024 * (segIdx * 64))
  have length : segment.length = stop - 1024 * (segIdx * 64) := by simp [segment, stop]
  let full := segment.length / 1024
  -- a chunk of the segment is one of the data: it is whole, or both end with it
  have chunks : ∀ i, i < full ∨ stop = data.length →
      chunkAt segment i = chunkAt data (segIdx * 64 + i) := by
    intro i short
    apply chunkAt_drop_take
    omega
  have many := hashMany_eq conforms words (by omega) (fun i bound => chunks i (Or.inl bound))
  have written : (if (tabulate (chunkAt segment) full).isEmpty then cvSlice
      else crate.hashMany (tabulate (chunkAt segment) full) self.keyWords
        (segIdx * 64).toUInt64 self.baseFlags chunkFlagStart chunkFlagEnd ++ cvSlice.drop full) =
      tabulate (fun i => chunkCvAt self.mode.spec data (segIdx * 64 + i)) full ++ cvSlice.drop full := by
    split
    next none =>
      have zero : full = 0 := by simpa [tabulate] using none
      simp [zero, tabulate]
    next => rw [many]
  have unfolded : self.processSegment crate data segIdx cvSlice =
      if (segment.drop (full * 1024)).isEmpty then
        tabulate (fun i => chunkCvAt self.mode.spec data (segIdx * 64 + i)) full ++ cvSlice.drop full
      else (tabulate (fun i => chunkCvAt self.mode.spec data (segIdx * 64 + i)) full ++ cvSlice.drop full).set full
        (crate.finalizeNonRoot self.mode ((segIdx * 64 + full).toUInt64 * 1024)
          (segment.drop (full * 1024))) := by
    rw [← written, Blake3Hasher.processSegment]
    have bytes : (data.take (min ((segIdx + 1) * bytesPerSegment) data.length)).drop
        (segIdx * chunksPerSegment * chunkLen) = segment := by
      simp only [segment, stop, bytesPerSegment, chunksPerSegment, chunkLen, Nat.mul_comm]
    rw [bytes]
    rfl
  simp only [chunkCount] at size
  rw [unfolded]
  -- what is left after the whole chunks is hashed by itself, into the slot after theirs
  split
  next none =>
    have exact : segment.length ≤ full * 1024 := by simpa using none
    have same : cvSlice.length = full := by omega
    rw [← same, List.drop_length, List.append_nil]
  next rest =>
    have more : full * 1024 < segment.length := by simpa using rest
    have same : cvSlice.length = full + 1 := by omega
    have last : segment.drop (full * 1024) = chunkAt data (segIdx * 64 + full) := by
      rw [← chunks full (Or.inr (by omega)), chunkAt, List.take_of_length_le, Nat.mul_comm]
      rw [List.length_drop]
      omega
    have size : (chunkAt data (segIdx * 64 + full)).length = segment.length - full * 1024 := by
      rw [← last, List.length_drop]
    have counter : ((segIdx * 64 + full).toUInt64).toNat < 2 ^ 54 := by
      simp only [Nat.toUInt64, toNat_ofNat']
      omega
    obtain ⟨slot, tail⟩ : ∃ slot, cvSlice.drop full = [slot] :=
      List.length_eq_one_iff.mp (by rw [List.length_drop]; omega)
    rw [last, conforms.finalizeNonRoot self.mode _ _ counter (by omega) (by omega), tail, same, tabulate_add,
      List.set_append_right _ _ (by simp)]
    simp [tabulate, chunkCvAt]

theorem hashChunks_eq (data : List UInt8) (fits : data.length < 2 ^ 63) : self.hashChunks crate data =
      tabulate (chunkCvAt self.mode.spec data) (chunkCount data.length) := by
  rw [Blake3Hasher.hashChunks]
  split
  next none => simp_all [chunkCount, tabulate]
  next =>
    have segment : ∀ segIdx, self.processSegment crate data segIdx
        (List.replicate (min chunksPerSegment (divCeil data.length chunkLen - segIdx * chunksPerSegment))
          (Vector.replicate 32 0)) =
        tabulate (fun i => chunkCvAt self.mode.spec data (segIdx * 64 + i))
          (min 64 (chunkCount data.length - segIdx * 64)) := by
      intro segIdx
      rw [processSegment_eq conforms words data fits, List.length_replicate]
      · rfl
      · simp only [List.length_replicate]
        rfl
    simp only [segment]
    exact flatMap_segments (chunkCvAt self.mode.spec data) (by decide : 0 < 64) (chunkCount data.length)

omit words in
theorem hash_chunks_in_order (made : self = .new ∨ ∃ key, self = .withKey key) (data : List UInt8)
    (fits : data.length < 2 ^ 63) : self.hashChunks crate data =
      tabulate (fun i => self.chunkCv crate (chunkAt data i) i.toUInt64) (divCeil data.length chunkLen) := by
  have words : (⟨.ofWords self.keyWords, self.baseFlags.toUInt32⟩ : Blake3.Mode) = self.mode.spec := by
    rcases made with rfl | ⟨key, rfl⟩
    · decide
    · exact withKey_words key
  rw [hashChunks_eq conforms words data fits]
  exact tabulate_congr fun i bound => (chunkCv_chunkAt conforms self fits bound).symm

end

/-- Three chunks, and a byte more in a fourth. -/
theorem hash_chunks_in_order_short : Blake3Hasher.new.hashChunks .reference (List.replicate 3073 7) =
    tabulate (fun i => Blake3Hasher.new.chunkCv .reference (chunkAt (List.replicate 3073 7) i) i.toUInt64) 4 := by
  rw [hash_chunks_in_order Blake3Crate.reference_conforms (.inl rfl) _ (by rw [List.length_replicate]; decide),
    List.length_replicate]
  rfl

end ArcMiner.PearlBlake3
