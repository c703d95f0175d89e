import Egalito.Lib.Stream
/-!
# `ArchiveStreamReader` and `ArchiveStreamWriter`

`archive/stream.cpp`. A writer is the bytes it puts out; a reader is a
computation on a stream. The host is little-endian.
-/

open Egalito.Lib

namespace Egalito.Archive

/-! ## Writing -/

def writeU8 (value : UInt8) : List UInt8 := [value]

def writeU32 (value : UInt32) : List UInt8 := leBytes 4 value.toNat

def writeU64 (value : UInt64) : List UInt8 := leBytes 8 value.toNat

def writeBool (flag : Bool) : List UInt8 := writeU8 (if flag then 0x31 else 0x30)

def writeString (value : List UInt8) : List UInt8 := value ++ [0]

/-- `writeBytes<uint8_t>`: the length is cut to one byte, the bytes are not. -/
def writeBytes8 (value : List UInt8) : List UInt8 := writeU8 (UInt8.ofNat value.length) ++ value

/-- `writeBytes<uint64_t>`. -/
def writeBytes64 (value : List UInt8) : List UInt8 := writeU64 (UInt64.ofNat value.length) ++ value

/-! ## Reading -/

def readU8 : Reader UInt8 := UInt8.ofNat <$> Reader.readLE 1

def readU32 : Reader UInt32 := UInt32.ofNat <$> Reader.readLE 4

def readU64 : Reader UInt64 := UInt64.ofNat <$> Reader.readLE 8

def readBool : Reader Bool := (· == 0x31) <$> readU8

/-- Cannot contain NULs. -/
def readString : Reader (List UInt8) := Reader.getline 0

def readFixedLengthBytes (length : Nat) : Reader (List UInt8) := Reader.read length

def readBytes8 : Reader (List UInt8) := do readFixedLengthBytes (← readU8).toNat

def readBytes64 : Reader (List UInt8) := do readFixedLengthBytes (← readU64).toNat

/-! ## Round trips -/

theorem reads_readU8 (v : UInt8) : Reads readU8 (writeU8 v) v := by
  have h := (reads_readLE 1 v.toNat).map UInt8.ofNat
  rwa [Nat.mod_eq_of_lt (by simpa using v.toNat_lt), leBytes, leBytes, UInt8.ofNat_toNat] at h

theorem reads_readU32 (v : UInt32) : Reads readU32 (writeU32 v) v := by
  have h := (reads_readLE 4 v.toNat).map UInt32.ofNat
  rwa [Nat.mod_eq_of_lt (by simpa using v.toNat_lt), UInt32.ofNat_toNat] at h

theorem reads_readU64 (v : UInt64) : Reads readU64 (writeU64 v) v := by
  have h := (reads_readLE 8 v.toNat).map UInt64.ofNat
  rwa [Nat.mod_eq_of_lt (by simpa using v.toNat_lt), UInt64.ofNat_toNat] at h

theorem reads_readBool (b : Bool) : Reads readBool (writeBool b) b := by
  have h := (reads_readU8 (if b then 0x31 else 0x30)).map (· == 0x31)
  cases b <;> exact h

theorem reads_readString {s : List UInt8} (hs : 0 ∉ s) : Reads readString (writeString s) s :=
  reads_getline hs

theorem reads_readFixedLengthBytes (bs : List UInt8) : Reads (readFixedLengthBytes bs.length) bs bs :=
  reads_read bs

theorem reads_readBytes8 {bs : List UInt8} (hbs : bs.length < 256) :
    Reads readBytes8 (writeBytes8 bs) bs := by
  refine (reads_readU8 _).bind ?_
  have hlen : (UInt8.ofNat bs.length).toNat = bs.length := by simp; omega
  rw [hlen]
  exact reads_readFixedLengthBytes bs

theorem reads_readBytes64 {bs : List UInt8} (hbs : bs.length < 2 ^ 64) : Reads readBytes64 (writeBytes64 bs) bs := by
  refine (reads_readU64 _).bind ?_
  rw [UInt64.toNat_ofNat_of_lt' hbs]
  exact reads_readFixedLengthBytes bs

/-! ## How much each reader takes -/

theorem takes_readU8 : Takes readU8 (fun _ k => k = 1) := takes_map (takes_readLE 1) fun _ _ h => h

theorem takes_readU32 : Takes readU32 (fun _ k => k = 4) := takes_map (takes_readLE 4) fun _ _ h => h

theorem takes_readU64 : Takes readU64 (fun _ k => k = 8) := takes_map (takes_readLE 8) fun _ _ h => h

theorem takes_readBool : Takes readBool (fun _ k => k = 1) := takes_map takes_readU8 fun _ _ h => h

theorem takes_readString : Takes readString (fun s k => 0 ∉ s ∧ k = s.length + 1) := takes_getline 0

theorem takes_readBytes8 : Takes readBytes8 (fun bs k => k = bs.length + 1) :=
  takes_readU8.bind fun length => (takes_read length.toNat).weaken fun bs k hk i hi => by omega

theorem takes_readBytes64 : Takes readBytes64 (fun bs _ => bs.length < 2 ^ 64) :=
  takes_readU64.bind fun length => (takes_read length.toNat).weaken fun bs k hk i _ => hk.1 ▸ length.toNat_lt

end Egalito.Archive
