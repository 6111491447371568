import Nockmark.Kit.Utf8

/-!
# Tock.Nonce

The seed rule (`tock/src/nonce.rs`): FNV-1a over domain and seed starts a splitmix64 stream, whose
first five outputs, reduced modulo the field's prime, are the belts.
-/

namespace Nockmark
namespace Tock

/-- `PRIME`, `2^64 - 2^32 + 1` -/
def prime : UInt64 := 18446744069414584321

/-- `NONCE_RULE` -/
def nonceRule : String := "fnv1a-splitmix64-v1"

def fnv1a (bytes : List UInt8) : UInt64 :=
  bytes.foldl (fun h b => (h ^^^ b.toUInt64) * 0x100000001b3) 0xcbf29ce484222325

/-- The output of splitmix64 at a state. -/
def mix (h : UInt64) : UInt64 :=
  let z := (h ^^^ (h >>> 30)) * 0xbf58476d1ce4e5b9
  let z := (z ^^^ (z >>> 27)) * 0x94d049bb133111eb
  z ^^^ (z >>> 31)

/-- The first `n` outputs after the state `h`. -/
def splitmix64 : Nat → UInt64 → List UInt64
  | 0, _ => []
  | n + 1, h => mix (h + 0x9e3779b97f4a7c15) :: splitmix64 n (h + 0x9e3779b97f4a7c15)

def seedToBelts (seed domain : String) : List UInt64 :=
  (splitmix64 5 (fnv1a (Kit.Utf8.encode (domain.toList ++ seed.toList)))).map (· % prime)

theorem length_seedToBelts (seed domain : String) : (seedToBelts seed domain).length = 5 := rfl

/-- The vector that locks version 1 of the rule. -/
example : seedToBelts "nockmark-m0-test-1" "nonce" =
    [7605750820624564413, 9130906209974091515, 666954970149679518, 9484078685814613428,
      11683996358245670181] := by decide +kernel

end Tock
end Nockmark
