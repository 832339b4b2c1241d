import CompilerLab.Asm.Cmds

/-!
# Doubles that are integers

The bits of the doubles whose values are integers, and the operations as they are on them; a quotient is rounded down. This is
enough to run programs that do not leave the integers; the sine and the cosine are those of zero.
-/

namespace CompilerLab.Asm

namespace Doubles

/-- The bits of an integer below `2 ^ 53`. -/
def encode (n : Int) : Elem :=
  if n = 0 then 0
  else
    let m := n.natAbs
    let e := m.log2
    let sign := if n < 0 then 2 ^ 63 else 0
    BitVec.ofNat 64 (sign + (e + 1023) * 2 ^ 52 + (m - 2 ^ e) * 2 ^ (52 - e))

/-- The integral part of a double that is at least one. -/
def decode (x : Elem) : Int :=
  let e := x.toNat / 2 ^ 52 % 2 ^ 11
  let m := 2 ^ 52 + x.toNat % 2 ^ 52
  if e < 1023 then 0
  else
    let v : Int := if e ≤ 1075 then (m / 2 ^ (1075 - e) : Nat) else (m * 2 ^ (e - 1075) : Nat)
    if x.toNat < 2 ^ 63 then v else -v

/-- The value of an optional sign and digits. -/
def decimal (s : Str) : Int :=
  match s with
  | '-' :: s => -(s.foldl (fun v c => 10 * v + (c.toNat - 48)) 0 : Nat)
  | s => (s.foldl (fun v c => 10 * v + (c.toNat - 48)) 0 : Nat)

def integers : Doubles where
  strtod s := encode (decimal s)
  ofInt := encode
  toInt := decode
  add x y := encode (decode x + decode y)
  sub x y := encode (decode x - decode y)
  mul x y := encode (decode x * decode y)
  div x y := encode (decode x / decode y)
  sqrt x := encode (decode x).toNat.sqrt
  sin _ := encode 0
  cos _ := encode 1
  abs x := encode (decode x).natAbs
  ceil x := x
  lt x y := decode x < decode y
  le x y := decode x ≤ decode y
  eq x y := decode x == decode y

end Doubles

end CompilerLab.Asm
