/-!
Readers over contents that have been fetched. Each reader has a position of its own, which may lie
past the end.
-/

namespace SharedWorkspace

structure Reader where
  bytes : List UInt8
  position : Nat := 0
  deriving DecidableEq

namespace Reader

def read (r : Reader) (n : Nat) : List UInt8 × Reader :=
  let taken := (r.bytes.drop r.position).take n
  (taken, { r with position := r.position + taken.length })

def seek (r : Reader) (position : Nat) : Reader :=
  { r with position }

end Reader
end SharedWorkspace
