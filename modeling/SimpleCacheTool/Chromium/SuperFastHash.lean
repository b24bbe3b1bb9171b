import SimpleCacheTool.Java.Machine

namespace SimpleCacheTool.Chromium

/-- `get16bits(d)`, in uint32 arithmetic. -/
def get16bits (d : List Byte) : BitVec 32 :=
  ((d.getD 1 0#8).setWidth 32 <<< 8) + (d.getD 0 0#8).setWidth 32

/-- The main loop; `data` is the moving pointer, read as what is left of the array. -/
def superFastHashLoop : Nat → BitVec 32 → List Byte → BitVec 32 × List Byte
  | 0, hash, data => (hash, data)
  | len + 1, hash, data =>
    let hash := hash + get16bits data
    let tmp := (get16bits (data.drop 2) <<< 11) ^^^ hash
    let hash := (hash <<< 16) ^^^ tmp
    let data := data.drop 4
    let hash := hash + (hash >>> 11)
    superFastHashLoop len hash data

/-- The end cases of one, two or three bytes left. -/
def superFastHashTail (rem : Nat) (hash : BitVec 32) (data : List Byte) : BitVec 32 :=
  if rem = 3 then
    let hash := hash + get16bits data
    let hash := hash ^^^ (hash <<< 16)
    let hash := hash ^^^ ((data.getD 2 0#8).signExtend 32 <<< 18)
    hash + (hash >>> 11)
  else if rem = 2 then
    let hash := hash + get16bits data
    let hash := hash ^^^ (hash <<< 11)
    hash + (hash >>> 17)
  else if rem = 1 then
    let hash := hash + (data.getD 0 0#8).signExtend 32
    let hash := hash ^^^ (hash <<< 10)
    hash + (hash >>> 1)
  else hash

/-- "Force avalanching of final 127 bits". -/
def superFastHashFinish (hash : BitVec 32) : BitVec 32 :=
  let hash := hash ^^^ (hash <<< 3)
  let hash := hash + (hash >>> 5)
  let hash := hash ^^^ (hash <<< 4)
  let hash := hash + (hash >>> 17)
  let hash := hash ^^^ (hash <<< 25)
  hash + (hash >>> 6)

/-- `SuperFastHash(data, len)` of a whole array. -/
def superFastHash (data : List Byte) : BitVec 32 :=
  if data.length = 0 then 0#32
  else
    let main := superFastHashLoop (data.length / 4) (BitVec.ofNat 32 data.length) data
    superFastHashFinish (superFastHashTail (data.length % 4) main.1 main.2)

/-- `base::PersistentHash` -/
def persistentHash (data : List Byte) : BitVec 32 := superFastHash data

end SimpleCacheTool.Chromium
