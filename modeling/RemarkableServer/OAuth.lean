import Mathlib.Data.List.AList
import RemarkableServer.Lib.FixedWindow
import RemarkableServer.Lib.RustText

/-!
# Device codes and their limiter

`oauth.rs`: the outstanding device authorizations, the limiter in front of
`POST /oauth/device/code`, and the requests that use them. A hash table is an
association list, one entry for a key; the order of the list is the order of
iteration, and a reordering may come between any two requests. Instants and
durations are nanoseconds.
-/
namespace OAuth

open RustText FixedWindow

def fromSecs (n : Nat) : Nat := n * 1000000000

def deviceCodeTtl : Nat := fromSecs 600
def maxPending : Nat := 256
def pollInterval : Nat := 5
def slowDownStep : Nat := fromSecs 5
def pollSlack : Nat := fromSecs 1
def perIpMax : Nat := 5
def perIpWindow : Nat := fromSecs 600
def globalMax : Nat := 20
def globalWindow : Nat := fromSecs 60
def maxTrackedIps : Nat := 1024

/-! ## Hash tables -/

abbrev Table (K V : Type) := AList fun _ : K => V

namespace Table

variable {K V : Type}

def len (t : Table K V) : Nat := t.entries.length

/-- `HashMap::retain`, for a condition on the values. -/
def retain (p : V → Bool) (t : Table K V) : Table K V :=
  ⟨t.entries.filter fun e => p e.2, t.nodupKeys.sublist List.filter_sublist⟩

/-- The first key with the smallest value of `f` among the entries that meet `p`. -/
def minByKey (f : V → Nat) (p : V → Bool) (t : Table K V) : Option K :=
  ((t.entries.filter fun e => p e.2).minOn? fun e => f e.2).map (·.1)

end Table

/-! ## Outstanding codes -/

structure Pending where
  deviceId : Text
  userCode : Text
  issuedAt : Nat
  approvedBy : Option Text
  interval : Nat
  lastPoll : Option Nat
  deriving DecidableEq

inductive Poll where
  | pending
  | slowDown (interval : Nat)
  | approved (userId deviceId : Text)
  | expired
  | unknown
  deriving DecidableEq

structure PendingCodes where
  map : Table Text Pending
  expired : Table Text Nat
  cap : Nat

namespace PendingCodes

def new (cap : Nat) : PendingCodes := ⟨∅, ∅, cap⟩

/-- The oldest remembered codes go while there are `cap` of them. Each round drops one, so `rounds` of at
least their number is enough. -/
def forgetOldest (cap : Nat) : Nat → Table Text Nat → Table Text Nat
  | 0, expired => expired
  | rounds + 1, expired =>
    if cap ≤ expired.len then
      match expired.minByKey id fun _ => true with
      | some oldest => forgetOldest cap rounds (expired.erase oldest)
      | none => expired
    else expired

def rememberExpired (deviceCode : Text) (now : Nat) (c : PendingCodes) : PendingCodes :=
  { c with expired := (forgetOldest c.cap c.expired.len c.expired).insert deviceCode now }

/-- `map.remove`, and the code is remembered. -/
def drop (now : Nat) (c : PendingCodes) (deviceCode : Text) : PendingCodes :=
  rememberExpired deviceCode now { c with map := c.map.erase deviceCode }

def isExpired (now : Nat) (p : Pending) : Bool := deviceCodeTtl < now - p.issuedAt

def evict (now : Nat) (c : PendingCodes) : PendingCodes :=
  let gone := (c.map.entries.filter fun e => isExpired now e.2).map (·.1)
  let c := gone.foldl (drop now) c
  { c with expired := c.expired.retain fun since => now - since ≤ deviceCodeTtl }

/-- The oldest code that is not approved, else the oldest. -/
def victim (map : Table Text Pending) : Option Text :=
  (map.minByKey (·.issuedAt) (·.approvedBy.isNone)).or (map.minByKey (·.issuedAt) fun _ => true)

/-- Codes go while there are `cap` of them; `rounds` as in `forgetOldest`. -/
def makeRoom (now : Nat) : Nat → PendingCodes → PendingCodes
  | 0, c => c
  | rounds + 1, c =>
    if c.cap ≤ c.map.len then
      match victim c.map with
      | some deviceCode => makeRoom now rounds (c.drop now deviceCode)
      | none => c
    else c

/-- `deviceId` is the random id the new code gets. -/
def insert (deviceCode userCode deviceId : Text) (now : Nat) (c : PendingCodes) : PendingCodes :=
  let c := c.evict now
  let c := c.makeRoom now c.map.len
  { c with map := c.map.insert deviceCode ⟨deviceId, userCode, now, none, fromSecs pollInterval, none⟩ }

def hasUserCode (userCode : Text) (c : PendingCodes) : Bool := c.map.entries.any fun e => e.2.userCode == userCode

def approve (userCode userId : Text) (now : Nat) (c : PendingCodes) : Bool × PendingCodes :=
  let c := c.evict now
  match c.map.entries.find? fun e => e.2.userCode == userCode with
  | some e => (true, { c with map := c.map.insert e.1 { e.2 with approvedBy := some userId } })
  | none => (false, c)

def isEarly (now : Nat) (p : Pending) : Bool :=
  match p.lastPoll with
  | some last => now - last + pollSlack < p.interval
  | none => false

def poll (deviceCode : Text) (now : Nat) (c : PendingCodes) : (Poll × Option Pending) × PendingCodes :=
  let c := c.evict now
  match c.map.lookup deviceCode with
  | none => ((if (c.expired.lookup deviceCode).isSome then .expired else .unknown, none), c)
  | some p =>
    match p.approvedBy with
    | none =>
      if isEarly now p then
        let interval := p.interval + slowDownStep
        ((.slowDown interval, none),
          { c with map := c.map.insert deviceCode { p with lastPoll := some now, interval := interval } })
      else
        ((.pending, none), { c with map := c.map.insert deviceCode { p with lastPoll := some now } })
    | some userId => ((.approved userId p.deviceId, some p), { c with map := c.map.erase deviceCode })

def restore (deviceCode : Text) (p : Pending) (c : PendingCodes) : PendingCodes :=
  { c with map := c.map.insert deviceCode p }

end PendingCodes

/-! ## The limiter -/

inductive IpAddr where
  | v4 (a b c d : UInt8)
  | v6 (s0 s1 s2 s3 s4 s5 s6 s7 : UInt16)
  deriving DecidableEq

/-- An IPv4-mapped IPv6 address is the IPv4 address. -/
def IpAddr.toCanonical : IpAddr → IpAddr
  | .v6 s0 s1 s2 s3 s4 s5 s6 s7 =>
    if s0 == 0 && s1 == 0 && s2 == 0 && s3 == 0 && s4 == 0 && s5 == 0xffff then
      .v4 (s6 >>> 8).toUInt8 s6.toUInt8 (s7 >>> 8).toUInt8 s7.toUInt8
    else .v6 s0 s1 s2 s3 s4 s5 s6 s7
  | .v4 a b c d => .v4 a b c d

def limitKey (ip : IpAddr) : IpAddr :=
  match ip.toCanonical with
  | .v6 s0 s1 s2 s3 _ _ _ _ => .v6 s0 s1 s2 s3 0 0 0 0
  | .v4 a b c d => .v4 a b c d

structure LimiterInner where
  perIp : Table IpAddr Window
  global : Window

def LimiterInner.new (now : Nat) : LimiterInner := ⟨∅, .fresh now⟩

/-- `DeviceCodeLimiter::check`; the answer is the time to wait when the request is not admitted. -/
def LimiterInner.check (ip : IpAddr) (now : Nat) (g : LimiterInner) : Except Nat Unit × LimiterInner :=
  let key := limitKey ip
  let g := { g with perIp := g.perIp.retain fun w => now - w.start < perIpWindow }
  match (g.perIp.lookup key).filter fun w => perIpMax ≤ w.count with
  | some w => (.error (perIpWindow - (now - w.start)), g)
  | none =>
    let g := { g with global := g.global.roll globalWindow now }
    let globalWait := globalWindow - (now - g.global.start)
    if globalMax ≤ g.global.count || (maxTrackedIps ≤ g.perIp.len && (g.perIp.lookup key).isNone) then
      (.error globalWait, g)
    else
      (.ok (), { perIp := g.perIp.insert key ((g.perIp.lookup key).getD (.fresh now)).add, global := g.global.add })

/-! ## Requests

`token` polls under the lock, mints the bundle outside it, and restores the code when that fails; in between
the polled code is `taken`. `handedOut`, `approvals` and `issued` record what has happened so far, the last first:
the device codes with the time they were inserted at, who approved which outstanding device codes and when, and
the bundles. -/

structure Sys where
  codes : PendingCodes
  taken : List (Text × Pending)
  clock : Nat
  handedOut : List (Text × Nat)
  approvals : List (Text × Text × Nat)
  issued : List (Text × Text)

def Sys.new (cap clock : Nat) : Sys := ⟨.new cap, [], clock, [], [], []⟩

inductive Action where
  | insert (deviceCode userCode deviceId : Text) (now : Nat)
  | approve (userCode userId : Text) (now : Nat)
  | poll (deviceCode : Text) (now : Nat)
  /-- The bundle for a taken code was minted. -/
  | issue (deviceCode : Text)
  /-- Minting the bundle for a taken code failed. -/
  | restore (deviceCode : Text)
  /-- The tables are iterated in another order. -/
  | reorder (map : Table Text Pending) (expired : Table Text Nat)

/-- The device codes that are outstanding with the user code. -/
def PendingCodes.withUserCode (userCode : Text) (c : PendingCodes) : List Text :=
  (c.map.entries.filter fun e => e.2.userCode == userCode).map (·.1)

def Sys.approve (userCode userId : Text) (now : Nat) (s : Sys) : Sys :=
  let outstanding := (s.codes.evict now).withUserCode userCode
  { s with
    codes := (s.codes.approve userCode userId now).2
    approvals := outstanding.map (·, userId, now) ++ s.approvals }

def Sys.poll (deviceCode : Text) (now : Nat) (s : Sys) : Sys :=
  let polled := s.codes.poll deviceCode now
  { s with
    codes := polled.2
    taken := (polled.1.2.map (deviceCode, ·)).toList ++ s.taken }

def Sys.leave (deviceCode : Text) (s : Sys) : Sys :=
  { s with taken := s.taken.filter (·.1 ≠ deviceCode) }

def step (s : Sys) : Action → Option Sys
  | .insert deviceCode userCode deviceId now =>
    if s.clock ≤ now then
      some { s with
        codes := s.codes.insert deviceCode userCode deviceId now
        clock := now
        handedOut := (deviceCode, now) :: s.handedOut }
    else none
  | .approve userCode userId now =>
    if s.clock ≤ now then some { s.approve userCode userId now with clock := now } else none
  | .poll deviceCode now =>
    if s.clock ≤ now then some { s.poll deviceCode now with clock := now } else none
  | .issue deviceCode =>
    (s.taken.find? (·.1 == deviceCode)).map fun e =>
      { s.leave deviceCode with issued := (deviceCode, e.2.approvedBy.getD []) :: s.issued }
  | .restore deviceCode =>
    (s.taken.find? (·.1 == deviceCode)).map fun e =>
      { s.leave deviceCode with codes := s.codes.restore deviceCode e.2 }
  | .reorder map expired =>
    if map.entries.Perm s.codes.map.entries ∧ expired.entries.Perm s.codes.expired.entries then
      some { s with codes := { s.codes with map := map, expired := expired } }
    else none

/-- The server with its limiter: a device code is inserted only when the limiter admits the request. -/
structure Limited where
  limiter : LimiterInner
  sys : Sys

def Limited.new (cap clock : Nat) : Limited := ⟨.new clock, .new cap clock⟩

inductive Request where
  | deviceCode (ip : IpAddr) (deviceCode userCode deviceId : Text) (now : Nat)
  | other (a : Action)

def Limited.step (s : Limited) : Request → Option Limited
  | .deviceCode ip deviceCode userCode deviceId now =>
    let checked := s.limiter.check ip now
    match checked.1 with
    | .ok _ => (OAuth.step s.sys (.insert deviceCode userCode deviceId now)).map fun sys => ⟨checked.2, sys⟩
    | .error _ => if s.sys.clock ≤ now then some ⟨checked.2, { s.sys with clock := now }⟩ else none
  | .other (.insert ..) => none
  | .other a => (OAuth.step s.sys a).map fun sys => ⟨s.limiter, sys⟩

end OAuth
