/-!
# Hashing names

Names are spread over buckets by a 64-bit FNV-1a hash of their UTF-8 bytes, followed by a mixing
step that lets every bit of the hash reach the low ones, which pick the bucket.
-/

namespace Reckon.Hash

/-- One step of FNV-1a: a byte is mixed into the running hash. -/
def step (hash : UInt64) (byte : UInt8) : UInt64 := (hash ^^^ byte.toUInt64) * 0x100000001b3

/-- The FNV-1a hash of bytes. -/
def fnv1a (bytes : List UInt8) : UInt64 := bytes.foldl step 0xcbf29ce484222325

/-- Folds the high bits of a hash into the low ones. -/
def avalanche (hash : UInt64) : UInt64 :=
  let mixed := (hash ^^^ (hash >>> 16)) * 0x517cc1b727220a95
  mixed ^^^ (mixed >>> 32)

/-- The bytes of a name. -/
def bytes (name : String) : List UInt8 := name.toList.flatMap String.utf8EncodeChar

/-- The bucket of a name, of `count` buckets. -/
def bucket (name : String) (count : Nat) : Nat := (avalanche (fnv1a (bytes name))).toNat % count

/-- The bucket of a name is one of the buckets. -/
theorem bucket_lt (name : String) {count : Nat} (h : 0 < count) : bucket name count < count :=
  Nat.mod_lt _ h

end Reckon.Hash
