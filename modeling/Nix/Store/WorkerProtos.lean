import Nix.Util.Streams

/-!
The handshake of the worker protocol, from both sides.
-/

set_option linter.dupNamespace false

namespace Nix.Store.WorkerProtos

open Lib.Channels Lib.SortedList Util.Types Util.Serialise Util.Streams

/-- `WorkerProto::Version::Number`. -/
structure Number where
  major : UInt32
  minor : UInt8
  deriving DecidableEq

namespace Number

/-- `operator<=>`, which compares the fields in order. -/
def cmp (a b : Number) : Ordering :=
  (compare a.major b.major).then (compare a.minor b.minor)

/-- `std::min`. -/
def min (a b : Number) : Number :=
  if b.cmp a = .lt then b else a

def toWire (n : Number) : UInt32 :=
  (n.major <<< 8) ||| n.minor.toUInt32

def fromWire (wire : UInt32) : Number :=
  ⟨(wire &&& 0xff00) >>> 8, (wire &&& 0x00ff).toUInt8⟩

end Number

abbrev FeatureSet := StringSet

/-- `WorkerProto::Version`. -/
structure Version where
  number : Number
  features : FeatureSet := .empty
  deriving DecidableEq

namespace Version

/-- `operator<=>`. Versions are unordered if neither has all features of the other. -/
def cmp (v other : Version) : Option Ordering :=
  let numCmp := v.number.cmp other.number
  let thisSubsetEq := ∀ f ∈ v.features.elems, f ∈ other.features
  let otherSubsetEq := ∀ f ∈ other.features.elems, f ∈ v.features
  if numCmp = .eq ∧ thisSubsetEq ∧ otherSubsetEq then some .eq
  else if numCmp.isLE ∧ thisSubsetEq then some .lt
  else if numCmp.isGE ∧ otherSubsetEq then some .gt
  else none

/-- `operator>=`. -/
def ge (v other : Version) : Bool :=
  match v.cmp other with
  | some .eq => true
  | some .gt => true
  | _ => false

end Version

def latest : Version where
  number := ⟨1, 38⟩
  features := .ofList
    [str "realisation-with-path-not-hash", str "delete-dead-specific-referrers"]

def intersectFeatures (a b : FeatureSet) : FeatureSet :=
  (a.elems.filter (· ∈ b)).foldl SortedSet.insert .empty

def workerMagic1 : UInt32 := 0x6e697863

def workerMagic2 : UInt32 := 0x6478696f

/-- `sink << n` for an `unsigned int`. -/
def writeInt (n : UInt32) : Conn Unit :=
  Program.write (writeUint64 n.toNat)

def exchange (protoVersionNumber : Number) (p : Conn FeatureSet) : Conn FeatureSet :=
  if (protoVersionNumber.cmp ⟨1, 38⟩).isGE then p else return .empty

/-- `BasicClientConnection::handshake`. -/
def clientHandshake (localVersion : Version) : Conn Version := do
  writeInt workerMagic1
  writeInt localVersion.number.toWire
  let magic ← readInt
  Program.failIf (magic ≠ workerMagic2) ⟨.error, ⟨"nix-daemon protocol mismatch from", []⟩⟩
  let daemonVersion := Number.fromWire (← readInt)
  Program.failIf (daemonVersion.major ≠ latest.number.major)
    ⟨.error, ⟨"Nix daemon protocol version not supported", []⟩⟩
  Program.failIf (daemonVersion.cmp ⟨1, 10⟩ = .lt)
    ⟨.error, ⟨"the Nix daemon version is too old", []⟩⟩
  let protoVersionNumber := daemonVersion.min localVersion.number
  let daemonFeatures ← exchange protoVersionNumber do
    Program.write (writeStrings localVersion.features)
    readStrings
  return {
    number := protoVersionNumber
    features := intersectFeatures daemonFeatures localVersion.features }

/-- `BasicServerConnection::handshake`. -/
def serverHandshake (localVersion : Version) : Conn Version := do
  let magic ← readInt
  Program.failIf (magic ≠ workerMagic1) ⟨.error, ⟨"protocol mismatch", []⟩⟩
  writeInt workerMagic2
  writeInt localVersion.number.toWire
  let clientVersion := Number.fromWire (← readInt)
  let protoVersionNumber := clientVersion.min localVersion.number
  let clientFeatures ← exchange protoVersionNumber do
    let clientFeatures ← readStrings
    Program.write (writeStrings localVersion.features)
    return clientFeatures
  return {
    number := protoVersionNumber
    features := intersectFeatures clientFeatures localVersion.features }

inductive TrustedFlag
  | notTrusted
  | trusted
  deriving DecidableEq

structure ClientHandshakeInfo where
  daemonNixVersion : Option Bytes := none
  remoteTrustsUs : Option TrustedFlag := none
  deriving DecidableEq

/-- `Serialise<std::optional<TrustedFlag>>::read`. -/
def readTrusted : Conn (Option TrustedFlag) := do
  match ← readNum (2 ^ 8 - 1) with
  | 0 => return none
  | 1 => return some .trusted
  | 2 => return some .notTrusted
  | _ => .fail ⟨.error, ⟨"Invalid trusted status from remote", []⟩⟩

def writeTrusted : Option TrustedFlag → Bytes
  | none => writeUint64 0
  | some .trusted => writeUint64 1
  | some .notTrusted => writeUint64 2

/-- `Serialise<ClientHandshakeInfo>::read`. -/
def readInfo (version : Version) : Conn ClientHandshakeInfo := do
  let daemonNixVersion ←
    (if version.ge { number := ⟨1, 33⟩ } then some <$> readString else pure none)
  let remoteTrustsUs ←
    (if version.ge { number := ⟨1, 35⟩ } then readTrusted else pure none)
  return { daemonNixVersion, remoteTrustsUs }

/-- `Serialise<ClientHandshakeInfo>::write`. -/
def writeInfo (version : Version) (info : ClientHandshakeInfo) : Conn Unit := do
  Program.onlyIf (version.ge { number := ⟨1, 33⟩ })
    (match info.daemonNixVersion with
    | some daemonNixVersion => Program.write (writeString daemonNixVersion)
    | none => .fail (.assertion "info.daemonNixVersion"))
  Program.onlyIf (version.ge { number := ⟨1, 35⟩ })
    (Program.write (writeTrusted info.remoteTrustsUs))

/-- `BasicClientConnection::postHandshake`. -/
def clientPostHandshake (protoVersion : Version) : Conn ClientHandshakeInfo := do
  -- Obsolete CPU affinity.
  Program.onlyIf (protoVersion.ge { number := ⟨1, 14⟩ }) (writeInt 0)
  -- Obsolete `reserveSpace`.
  Program.onlyIf (protoVersion.ge { number := ⟨1, 11⟩ }) (writeInt 0)
  readInfo protoVersion

/-- `readInt` without a use for the result. -/
def skipInt : Conn Unit := do
  let _ ← readInt
  return ()

/-- `BasicServerConnection::postHandshake`. -/
def serverPostHandshake (info : ClientHandshakeInfo) (protoVersion : Version) : Conn Unit := do
  -- Obsolete CPU affinity.
  Program.onlyIf (protoVersion.ge { number := ⟨1, 14⟩ }) do
    let affinity ← readInt
    Program.onlyIf (affinity ≠ 0) skipInt
  -- Obsolete `reserveSpace`.
  Program.onlyIf (protoVersion.ge { number := ⟨1, 11⟩ }) skipInt
  writeInfo protoVersion info

abbrev Handshake := Connection UInt8 Error Version ClientHandshakeInfo Unit

/-- A byte that a sink still buffers counts as sent: it may arrive at any later time. -/
def start (client server : Version) : Handshake :=
  Nix.Lib.Channels.start (clientHandshake client) (serverHandshake server)

def step (info : ClientHandshakeInfo) : Handshake → Side → Option Handshake :=
  Nix.Lib.Channels.step clientPostHandshake (serverPostHandshake info)

/-- What a version with features means to versions without a way to exchange them. -/
def exchanged (number : Number) (client server : Version) : FeatureSet :=
  if (number.cmp ⟨1, 38⟩).isGE then intersectFeatures client.features server.features else .empty

/-- Whoever has returned from the handshake agrees with the other side, and no byte is left
when both sides are ready for the first operation. -/
structure Agrees (client server : Version) (s : Handshake) : Prop where
  number : ∀ v w, s.client.returned = some v → s.server.returned = some w →
    v.number = w.number
  features : ∀ v w, s.client.returned = some v → s.server.returned = some w →
    v.features = exchanged v.number client server ∧ w.features = v.features
  inStep : ∀ v info w, s.client.finished = some (v, info) → s.server.finished = some (w, ()) →
    s.toServer = [] ∧ s.toClient = []

/-- The major version fits the byte that it has on the wire. -/
def Version.MajorFits (v : Version) : Prop :=
  v.number.major < 256

end Nix.Store.WorkerProtos
