import HttpClient.Bytes
set_option autoImplicit false

namespace HttpClient.Checksum

/-- One bit of the reflected cyclic code with polynomial `edb88320`. -/
def crcBit (crc : UInt32) : UInt32 :=
  if crc &&& 1 = 1 then (crc >>> 1) ^^^ 0xEDB88320 else crc >>> 1

def crcOctet (crc : UInt32) (b : UInt8) : UInt32 :=
  Nat.repeat crcBit 8 (crc ^^^ b.toUInt32)

def crc32 (bs : Bytes) : UInt32 := bs.foldl crcOctet 0xFFFFFFFF ^^^ 0xFFFFFFFF

def adler32 (bs : Bytes) : Nat :=
  let (a, b) := bs.foldl
    (fun (a, b) x => let a := (a + x.toNat) % 65521; (a, (b + a) % 65521)) (1, 0)
  b * 65536 + a

end HttpClient.Checksum
