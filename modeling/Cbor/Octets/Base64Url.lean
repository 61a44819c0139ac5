import Cbor.Octets.Basic

namespace Cbor.Octets.Base64Url

def sextet (n : Nat) : Char :=
  if n < 26 then Char.ofNat (65 + n)
  else if n < 52 then Char.ofNat (71 + n)
  else if n < 62 then Char.ofNat (n - 4)
  else if n = 62 then '-'
  else '_'

/-- Three octets make four characters; one or two left over make two or three. -/
def encodeAux (done : Array Char) : Octets → Array Char
  | [] => done
  | [x] => done.push (sextet (x.toNat / 4)) |>.push (sextet (x.toNat % 4 * 16))
  | [x, y] =>
    let n := x.toNat * 256 + y.toNat
    done.push (sextet (n / 1024)) |>.push (sextet (n / 16 % 64)) |>.push (sextet (n % 16 * 4))
  | x :: y :: z :: b =>
    let n := (x.toNat * 256 + y.toNat) * 256 + z.toNat
    encodeAux (done.push (sextet (n / 262144)) |>.push (sextet (n / 4096 % 64))
      |>.push (sextet (n / 64 % 64)) |>.push (sextet (n % 64))) b

def encode (b : Octets) : List Char := (encodeAux #[] b).toList

end Cbor.Octets.Base64Url
