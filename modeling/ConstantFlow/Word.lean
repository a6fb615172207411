/-!
# Machine words

Constants are signed 32-bit words. Arithmetic is carried out on unbounded integers and its result is
brought back into range: the low 32 bits of its two's complement are kept and read with their sign.
-/

namespace ConstantFlow.Word

/-- The least word. -/
def least : Int := Int32.minValue.toInt

/-- The greatest word. -/
def greatest : Int := Int32.maxValue.toInt

/-- The bits of an integer under a mask, in two's complement: those of a negative integer are the
complement of the bits of a natural number. -/
def masked (mask : Nat) : Int → Nat
  | .ofNat n => n &&& mask
  | .negSucc n => mask ^^^ (n &&& mask)

/-- The 32 bits of a word. -/
def mask : Nat := 0xffffffff

/-- The low 32 bits of an integer, read with their sign. -/
def wrap (n : Int) : Int :=
  let low : Int := masked mask n
  if low > greatest then low - 0x100000000 else low

/-- The word that an integer wraps to. -/
def ofInt (n : Int) : Int32 :=
  Int32.ofInt (wrap n)

end ConstantFlow.Word
