import Multiplix.Boot.Crc
import Multiplix.Lib.Duplex

/-! Booting over a serial line: `recv` of `boot.main` on the device and `progCmd.Execute` of
`plboot` on the host, which exchange bytes. -/
namespace Multiplix.Boot
open Lib

def GetProgInfo : ℕ := 0x11223344
def PutProgInfo : ℕ := 0x33334444
def GetCode : ℕ := 0x55556666
def PutCode : ℕ := 0x77778888
def BootSuccess : ℕ := 0x9999AAAA
def BootError : ℕ := 0xBBBBCCCC
def BadCodeCksum : ℕ := 0xfeedface

/-- How a program ends that does not come to its end. -/
inductive Abort
  /-- the host: `check mismatch: expected %x, got %x` -/
  | checkMismatch (expected got : ℕ)
  /-- the host: `bootloader error code: %x` -/
  | errorCode (result : ℕ)
  /-- the device halts, having sent `BootError` -/
  | bootError
  /-- the device halts, having sent `BadCodeCksum` -/
  | badCodeCksum

structure BootData where
  entry : ℕ
  data : List Byte

/-- A program on one end of the line. -/
abbrev Uart (A : Type) := Comm Byte Abort A

section Words

def putUint (u : ℕ) : Uart Unit := .sendAll (leBytes 4 u)

def getUint : Uart ℕ := do
  let bs ← Comm.recvAll 4
  pure (leVal bs)

def getUlong : Uart ℕ := do
  let bs ← Comm.recvAll 8
  pure (leVal bs)

end Words

/-- The bootloader. The delay before it looks for a reply takes time only, as does flushing. -/
def recv : Uart BootData := do
  putUint GetProgInfo
  let rxEmpty ← Comm.empty .ret
  if rxEmpty then .again
  else do
    let reply ← getUint
    if reply ≠ PutProgInfo then .again
    else do
      let entry ← getUlong
      let nbytes ← getUint
      let crcRecv ← getUint
      putUint GetCode
      putUint crcRecv
      let flag ← getUint
      if flag ≠ PutCode then do
        putUint BootError
        .fail .bootError
      else do
        let data ← Comm.recvAll nbytes
        if (crc32 data).toNat ≠ crcRecv then do
          putUint BadCodeCksum
          .fail .badCodeCksum
        else do
          putUint BootSuccess
          pure ⟨entry, data⟩

def readOne : Uart ℕ := .recv fun b => .ret b.toNat

def progRequested : Uart Bool := do
  if (← readOne) ≠ (GetProgInfo >>> 0) &&& 0xff then return false
  if (← readOne) ≠ (GetProgInfo >>> 8) &&& 0xff then return false
  if (← readOne) ≠ (GetProgInfo >>> 16) &&& 0xff then return false
  if (← readOne) ≠ (GetProgInfo >>> 24) &&& 0xff then return false
  return true

def checkUint (val : ℕ) : Uart Unit := do
  let u ← getUint
  if u ≠ val then .fail (.checkMismatch val u)

/-- The host once the port is open, to the message `Boot successful`. -/
def prog (entry : BitVec 64) (bin : List Byte) : Uart Unit := do
  if !(← progRequested) then .again
  else do
    putUint PutProgInfo
    .sendAll (leBytes 8 entry.toNat)
    putUint (bin.length % 2 ^ 32)
    putUint (crc32 bin).toNat
    checkUint GetCode
    checkUint (crc32 bin).toNat
    putUint PutCode
    .sendAll bin
    let result ← getUint
    if result ≠ BootSuccess then .fail (.errorCode result)

section Scripts

/-- The script of a word on the side that sends it, and on the one that receives it. -/
def wordOut (n v : ℕ) : List (Act Byte) := (leBytes n v).map .send

def wordIn (n v : ℕ) : List (Act Byte) := (leBytes n v).map .recv

theorem follows_putUint (u : ℕ) : (putUint u).Follows (wordOut 4 u) () :=
  Comm.follows_sendAll _

theorem follows_getUint {u : ℕ} (h : u < 2 ^ 32) : getUint.Follows (wordIn 4 u) u := by
  have hr := (Comm.follows_recvAll (E := Abort) (leBytes 4 u)).bind
    (f := fun bs => .ret (leVal bs)) (.ret _)
  rw [List.append_nil, leVal_leBytes, Nat.mod_eq_of_lt (by omega), length_leBytes] at hr
  exact hr

theorem follows_getUlong {u : ℕ} (h : u < 2 ^ 64) : getUlong.Follows (wordIn 8 u) u := by
  have hr := (Comm.follows_recvAll (E := Abort) (leBytes 8 u)).bind
    (f := fun bs => .ret (leVal bs)) (.ret _)
  rw [List.append_nil, leVal_leBytes, Nat.mod_eq_of_lt (by omega), length_leBytes] at hr
  exact hr

/-- What the device does when the first reply is there as it looks, for the words that are
exchanged. -/
def deviceScript (ask reply entry nbytes crc code putCode bin done : List Byte) :
    List (Act Byte) :=
  ask.map .send ++ ([.empty] ++ (reply.map .recv ++ (entry.map .recv ++ (nbytes.map .recv ++
    (crc.map .recv ++ (code.map .send ++ (crc.map .send ++ (putCode.map .recv ++
      (bin.map .recv ++ (done.map .send ++ []))))))))))

/-- What the host does when it reads one request only. -/
def hostScript (ask reply entry nbytes crc code putCode bin done : List Byte) :
    List (Act Byte) :=
  ask.map .recv ++ (reply.map .send ++ (entry.map .send ++ (nbytes.map .send ++
    (crc.map .send ++ (code.map .recv ++ (crc.map .recv ++ (putCode.map .send ++
      (bin.map .send ++ (done.map .recv ++ [])))))))))

theorem scripts_dual (ask reply entry nbytes crc code putCode bin done : List Byte) :
    Act.sent (hostScript ask reply entry nbytes crc code putCode bin done) =
        Act.received (deviceScript ask reply entry nbytes crc code putCode bin done) ∧
      Act.sent (deviceScript ask reply entry nbytes crc code putCode bin done) =
        Act.received (hostScript ask reply entry nbytes crc code putCode bin done) := by
  constructor <;> simp [deviceScript, hostScript, Act.received, Act.sent]

/-- The last thing the device does is to send. -/
theorem deviceScript_suffix (ask reply entry nbytes crc code putCode bin done : List Byte)
    (b : Byte) : [.send b] <:+
      deviceScript ask reply entry nbytes crc code putCode bin (done ++ [b]) := by
  unfold deviceScript
  iterate 10 refine List.IsSuffix.trans ?_ (List.suffix_append _ _)
  rw [List.append_nil, List.map_append]
  exact List.suffix_append _ _

def recvScript (entry : BitVec 64) (bin : List Byte) : List (Act Byte) :=
  deviceScript (leBytes 4 GetProgInfo) (leBytes 4 PutProgInfo) (leBytes 8 entry.toNat)
    (leBytes 4 bin.length) (leBytes 4 (crc32 bin).toNat) (leBytes 4 GetCode) (leBytes 4 PutCode)
    bin (leBytes 4 BootSuccess)

def progScript (entry : BitVec 64) (bin : List Byte) : List (Act Byte) :=
  hostScript (leBytes 4 GetProgInfo) (leBytes 4 PutProgInfo) (leBytes 8 entry.toNat)
    (leBytes 4 bin.length) (leBytes 4 (crc32 bin).toNat) (leBytes 4 GetCode) (leBytes 4 PutCode)
    bin (leBytes 4 BootSuccess)

theorem follows_recv (entry : BitVec 64) {bin : List Byte} (h : bin.length < 2 ^ 32) :
    recv.Follows (recvScript entry bin) ⟨entry.toNat, bin⟩ := by
  unfold recv
  refine (follows_putUint _).bind (Comm.Follows.bind (.empty (.ret false)) ?_)
  rw [if_neg (by decide)]
  refine (follows_getUint (by decide)).bind ?_
  rw [if_neg (by decide)]
  refine (follows_getUlong entry.isLt).bind ((follows_getUint h).bind
    ((follows_getUint (crc32 bin).isLt).bind ((follows_putUint _).bind
      ((follows_putUint _).bind ((follows_getUint (by decide)).bind ?_)))))
  rw [if_neg (by decide)]
  refine (Comm.follows_recvAll bin).bind ?_
  rw [if_neg (not_not.mpr rfl)]
  exact (follows_putUint _).bind (.ret _)

theorem follows_progRequested : progRequested.Follows (wordIn 4 GetProgInfo) true := by
  have hword : leBytes 4 GetProgInfo = [0x44, 0x33, 0x22, 0x11] := by decide +kernel
  rw [wordIn, hword]
  exact .recv (.recv (.recv (.recv (.ret true))))

theorem follows_checkUint {u : ℕ} (h : u < 2 ^ 32) : (checkUint u).Follows (wordIn 4 u) () := by
  rw [← List.append_nil (wordIn 4 u)]
  unfold checkUint
  apply (follows_getUint h).bind
  rw [if_neg (not_not.mpr rfl)]
  exact .ret ()

theorem follows_prog (entry : BitVec 64) {bin : List Byte} (h : bin.length < 2 ^ 32) :
    (prog entry bin).Follows (progScript entry bin) () := by
  unfold prog
  refine follows_progRequested.bind ?_
  rw [if_neg (by decide), Nat.mod_eq_of_lt h]
  refine (follows_putUint _).bind ?_
  refine (Comm.follows_sendAll _).bind ?_
  refine (follows_putUint _).bind ?_
  refine (follows_putUint _).bind ?_
  have hcode : GetCode < 2 ^ 32 := by decide
  refine (follows_checkUint hcode).bind ?_
  refine (follows_checkUint (crc32 bin).isLt).bind ?_
  refine (follows_putUint _).bind ?_
  refine (Comm.follows_sendAll _).bind ?_
  have hsuccess : BootSuccess < 2 ^ 32 := by decide
  refine (follows_getUint hsuccess).bind ?_
  rw [if_neg (not_not.mpr rfl)]
  exact .ret ()

end Scripts

/-- The two ends of the line, the device on the left. -/
abbrev Link := Duplex Byte Abort BootData Unit

/-- As long as the device finds a reply whenever it looks for one, neither side gives up, and when
the host is done the device has the image and its entry. -/
theorem booted_of_finds (entry : BitVec 64) (bin : List Byte) (hlen : bin.length < 2 ^ 32)
    {s : Link} (hr : Duplex.Traced recv (prog entry bin) Duplex.Finds s) :
    (∀ e, s.left ≠ .fail e) ∧ (∀ e, s.right ≠ .fail e) ∧
      (s.right = .ret () → s.left = .ret ⟨entry.toNat, bin⟩) := by
  obtain ⟨hhost, hdevice⟩ := scripts_dual (leBytes 4 GetProgInfo) (leBytes 4 PutProgInfo)
    (leBytes 8 entry.toNat) (leBytes 4 bin.length) (leBytes 4 (crc32 bin).toNat)
    (leBytes 4 GetCode) (leBytes 4 PutCode) bin (leBytes 4 BootSuccess)
  obtain ⟨σ, τ, hd, hσ, -⟩ :=
    hr.dual (follows_recv entry hlen) (follows_prog entry hlen) hhost hdevice
  refine ⟨hd.not_fail.1, hd.not_fail.2, fun hret => ?_⟩
  obtain ⟨hsent, -⟩ := hd.of_right_ret hret
  have hword : leBytes 4 BootSuccess = [0xAA, 0xAA, 0x99] ++ [0x99] := by decide +kernel
  rw [recvScript, hword] at hσ
  obtain ⟨ρ, hρ⟩ := deviceScript_suffix (leBytes 4 GetProgInfo) (leBytes 4 PutProgInfo)
    (leBytes 8 entry.toNat) (leBytes 4 bin.length) (leBytes 4 (crc32 bin).toNat)
    (leBytes 4 GetCode) (leBytes 4 PutCode) bin [0xAA, 0xAA, 0x99] 0x99
  rw [← hρ] at hσ
  have hl := hd.left
  rw [Act.eq_nil_of_suffix hσ hsent] at hl
  exact hl.eq_ret

section Runs

private def isRet : Uart Unit → Bool
  | .ret _ => true
  | _ => false

private def isMismatch (expected got : ℕ) : Uart Unit → Bool
  | .fail (.checkMismatch x y) => x == expected && y == got
  | _ => false

/-- Whether the device finds a reply when it looks for one. -/
private def finds (s : Link) : Side → Bool
  | .left => match s.left with
    | .empty _ => !s.toLeft.isEmpty
    | _ => true
  | .right => match s.right with
    | .empty _ => !s.toRight.isEmpty
    | _ => true

private theorem finds_of_finds (s : Link) (i : Side) (h : finds s i) : s.Finds i := by
  obtain ⟨left, right, toLeft, toRight⟩ := s
  cases i with
  | left =>
    cases left with
    | empty k => cases toLeft <;> simp_all [finds, Duplex.Finds, Comm.Finds]
    | _ => trivial
  | right =>
    cases right with
    | empty k => cases toRight <;> simp_all [finds, Duplex.Finds, Comm.Finds]
    | _ => trivial

/-- A schedule in which the host answers at once. -/
private def prompt : List Side :=
  List.replicate 4 .left ++ List.replicate 24 .right ++ List.replicate 29 .left ++
    List.replicate 13 .right ++ List.replicate 9 .left ++ List.replicate 4 .right

/-- An image of one byte. -/
theorem booted_of_finds_byte : ∃ s : Link,
    Duplex.Traced recv (prog 0x84010000 [7]) Duplex.Finds s ∧ s.right = .ret () ∧
      s.left = .ret ⟨0x84010000, [7]⟩ := by
  have hs : ((Duplex.run recv (prog 0x84010000 [7]) finds prompt
      ⟨recv, prog 0x84010000 [7], [], []⟩).map fun s => isRet s.right) = some true := by
    decide +kernel
  obtain ⟨s, hrun, hret⟩ := Option.map_eq_some_iff.mp hs
  have hr := Duplex.Traced.run finds_of_finds prompt .start hrun
  have hright : s.right = .ret () := by
    unfold isRet at hret
    split at hret
    · assumption
    · cases hret
  exact ⟨s, hr, hright, (booted_of_finds 0x84010000 [7] (by decide) hr).2.2 hright⟩

/-- The device asks twice before the host reads, and the host takes the second request for the
answer to its own. -/
theorem mismatch_of_two_requests : ∃ s : Link,
    Duplex.Traced recv (prog 0x84010000 [7]) (fun _ _ => True) s ∧
      s.right = .fail (.checkMismatch GetCode GetProgInfo) := by
  have hs : ((Duplex.run recv (prog 0x84010000 [7]) (fun _ _ => true)
      (List.replicate 10 .left ++ List.replicate 28 .right)
      ⟨recv, prog 0x84010000 [7], [], []⟩).map fun s => isMismatch GetCode GetProgInfo s.right) =
        some true := by
    decide +kernel
  obtain ⟨s, hrun, hmis⟩ := Option.map_eq_some_iff.mp hs
  refine ⟨s, Duplex.Traced.run (fun _ _ _ => trivial) _ .start hrun, ?_⟩
  unfold isMismatch at hmis
  split at hmis
  · rename_i x y heq
    obtain ⟨hx, hy⟩ := Bool.and_eq_true_iff.mp hmis
    rw [heq, beq_iff_eq.mp hx, beq_iff_eq.mp hy]
  · cases hmis

end Runs

end Multiplix.Boot
