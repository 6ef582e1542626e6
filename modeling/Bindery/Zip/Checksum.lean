/-!
# Checksums

The cyclic redundancy check of 32 bits that archives keep for each member.
-/

namespace Bindery.Zip

/-- One bit of a division by the reflected polynomial. -/
def checksumBit (c : UInt32) : UInt32 :=
  if c &&& 1 = 1 then (c >>> 1) ^^^ 0xEDB88320 else c >>> 1

def checksumByte (c : UInt32) (b : UInt8) : UInt32 :=
  (List.range 8).foldl (fun c _ => checksumBit c) (c ^^^ b.toUInt32)

def checksum (bytes : List UInt8) : UInt32 :=
  bytes.foldl checksumByte 0xFFFFFFFF ^^^ 0xFFFFFFFF

end Bindery.Zip
