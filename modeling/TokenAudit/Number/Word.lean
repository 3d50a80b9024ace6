/-!
# Words of 64 bits

Which numbers a word holds, unsigned and signed.
-/

namespace TokenAudit.Number

def wordLimit : Nat := 0x10000000000000000

def signedLimit : Nat := 0x8000000000000000

def fitsWord (n : Nat) : Bool := n < wordLimit

def fitsSigned : Int → Bool
  | .ofNat n => n < signedLimit
  | .negSucc n => n < signedLimit

def word? (n : Nat) : Option Nat := if fitsWord n then some n else none

end TokenAudit.Number
