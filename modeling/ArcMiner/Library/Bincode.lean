import ArcMiner.Library.LittleEndian
import ArcMiner.Library.Reader

/-! The bincode format: integers of eight bytes from the low one up, and counted sequences. -/

namespace ArcMiner.Library.Bincode

open Reader

variable {α β : Type}

def u8 : Reader UInt8 UInt8 := token

def u64 : Reader UInt8 UInt64 := do
  let bytes ← many u8 8
  pure (packBytes (bytes.getD · 0) 8)

def usize : Reader UInt8 Nat := do
  let value ← u64
  pure value.toNat

def vec (item : Reader UInt8 α) : Reader UInt8 (List α) := do
  let count ← usize
  many item count

def sized (size : Nat) (items : List α) : Reader UInt8 (Vector α size) :=
  if exact : items.length = size then pure ⟨items.toArray, exact⟩ else failure

def array (item : Reader UInt8 α) (size : Nat) : Reader UInt8 (Vector α size) := do
  let items ← many item size
  sized size items

theorem reads_u64 (z : UInt64) : Reads u64 (longBytes z) z := by
  have bytes : Reads (many u8 8) (longBytes z) (longBytes z) := by
    have read := reads_tokens (longBytes z)
    rwa [longBytes, List.length_map, List.length_range] at read
  have packed : packBytes ((longBytes z).getD · 0) 8 = z := packBytes_longByte z
  have read := bytes.map (fun bytes => packBytes (bytes.getD · 0) 8)
  rwa [packed] at read

theorem reads_usize {n : Nat} (fits : n < 2 ^ 64) : Reads usize (longBytes n.toUInt64) n := by
  have read := (reads_u64 n.toUInt64).map UInt64.toNat
  rwa [show n.toUInt64.toNat = n from UInt64.toNat_ofNat_of_lt fits] at read

theorem reads_vec {item : Reader UInt8 β} {write : α → List UInt8} {value : α → β} {xs : List α} (fits : xs.length < 2 ^ 64)
    (each : ∀ x ∈ xs, Reads item (write x) (value x)) :
    Reads (vec item) (longBytes xs.length.toUInt64 ++ xs.flatMap write) (xs.map value) :=
  (reads_usize fits).bind (reads_many each)

theorem reads_sized {size : Nat} (items : Vector α size) : Reads (sized size items.toList) [] items := by
  unfold sized
  rw [dif_pos items.length_toList]
  exact Reads.pure _

theorem reads_array {size : Nat} (bytes : Vector UInt8 size) : Reads (array u8 size) bytes.toList bytes := by
  have items : Reads (many u8 size) bytes.toList bytes.toList := by
    have read := reads_tokens bytes.toList
    rwa [Vector.length_toList] at read
  have read := items.bind (reads_sized bytes)
  rwa [List.append_nil] at read

end ArcMiner.Library.Bincode
