import Nix.Store.WorkerProtos

/-!
Both sides of the worker protocol agree on a version and are in step after the handshake.
-/

set_option linter.dupNamespace false

namespace Nix.Store.WorkerProtos

open Lib.Channels Lib.SortedList Lib.Transitions Util.Types Util.Serialise Util.StringSource
  Util.Streams

theorem Number.fromWire_toWire {n : Number} (h : n.major < 256) : fromWire n.toWire = n := by
  obtain ⟨major, minor⟩ := n
  have hmajor : major.toNat < 256 := UInt32.lt_iff_toNat_lt.mp h
  have hminor := minor.toNat_lt
  have hwire : (Number.mk major minor).toWire.toNat = major.toNat * 256 + minor.toNat := by
    rw [Number.toWire, UInt32.toNat_or, UInt32.toNat_shiftLeft, UInt8.toNat_toUInt32]
    change major.toNat <<< 8 % 2 ^ 32 ||| minor.toNat = _
    rw [Nat.shiftLeft_eq, Nat.mod_eq_of_lt (by omega), ← Nat.shiftLeft_eq,
      ← Nat.shiftLeft_add_eq_or_of_lt hminor, Nat.shiftLeft_eq]
  rw [Number.fromWire, Number.mk.injEq]
  constructor
  · apply UInt32.toNat_inj.mp
    rw [UInt32.toNat_shiftRight, UInt32.toNat_and, hwire]
    change ((major.toNat * 256 + minor.toNat) &&& 0xff00) >>> 8 = _
    rw [Nat.shiftRight_and_distrib, Nat.shiftRight_eq_div_pow]
    change ((major.toNat * 256 + minor.toNat) / 2 ^ 8) &&& (2 ^ 8 - 1) = _
    rw [Nat.and_two_pow_sub_one_eq_mod]
    omega
  · apply UInt8.toNat_inj.mp
    rw [UInt32.toNat_toUInt8, UInt32.toNat_and, hwire]
    change ((major.toNat * 256 + minor.toNat) &&& (2 ^ 8 - 1)) % 2 ^ 8 = _
    rw [Nat.and_two_pow_sub_one_eq_mod]
    omega

theorem Number.cmp_swap (a b : Number) : (a.cmp b).swap = b.cmp a := by
  have hmajor : compare b.major a.major = (compare a.major b.major).swap :=
    Std.OrientedCmp.eq_swap
  have hminor : compare b.minor a.minor = (compare a.minor b.minor).swap :=
    Std.OrientedCmp.eq_swap
  rw [Number.cmp, Number.cmp, Ordering.swap_then, hmajor, hminor]

theorem Number.eq_of_cmp {a b : Number} (h : a.cmp b = .eq) : a = b := by
  obtain ⟨hmajor, hminor⟩ := Ordering.then_eq_eq.mp h
  cases a
  cases b
  rw [Number.mk.injEq]
  exact ⟨Std.LawfulEqCmp.eq_of_compare hmajor, Std.LawfulEqCmp.eq_of_compare hminor⟩

theorem Number.min_comm (a b : Number) : a.min b = b.min a := by
  rw [Number.min, Number.min, ← Number.cmp_swap a b]
  cases h : a.cmp b with
  | lt => rfl
  | eq => exact (Number.eq_of_cmp h)
  | gt => rfl

theorem Version.ge_number (v : Version) (number : Number) :
    v.ge { number } = (v.number.cmp number).isGE := by
  have hother : ∀ f ∈ (SortedSet.empty : FeatureSet).elems, f ∈ v.features := by
    intro f hf
    cases hf
  have hlt : Ordering.lt ≠ .eq := by decide
  have hgt : Ordering.gt ≠ .eq := by decide
  have hle : ¬Ordering.lt.isGE := by decide
  have hge : ¬Ordering.gt.isLE := by decide
  rw [Version.ge, Version.cmp]
  cases v.number.cmp number with
  | lt =>
      by_cases hthis : ∀ f ∈ v.features.elems, f ∈ (SortedSet.empty : FeatureSet)
      · rw [if_neg fun h => hlt h.1, if_pos ⟨rfl, hthis⟩]
        rfl
      · rw [if_neg fun h => hlt h.1, if_neg fun h => hthis h.2, if_neg fun h => hle h.1]
        rfl
  | eq =>
      by_cases hthis : ∀ f ∈ v.features.elems, f ∈ (SortedSet.empty : FeatureSet)
      · rw [if_pos ⟨rfl, hthis, hother⟩]
        rfl
      · rw [if_neg fun h => hthis h.2.1, if_neg fun h => hthis h.2, if_pos ⟨rfl, hother⟩]
        rfl
  | gt =>
      rw [if_neg fun h => hgt h.1, if_neg fun h => hge h.1, if_pos ⟨rfl, hother⟩]
      rfl

variable {client server v w : Version} {ins outs ins' outs' rest rest' sent sent' : Bytes}

theorem returns_writeInt_bind {α : Type} {n : UInt32} {f : Unit → Conn α} {a : α} :
    (writeInt n >>= f).Returns ins outs a ↔
      ∃ outs', outs = writeUint64 n.toNat ++ outs' ∧ (f ()).Returns ins outs' a :=
  Program.returns_write_bind

theorem returns_readInt_bind {α : Type} {f : UInt32 → Conn α} {a : α} :
    (readInt >>= f).Returns ins outs a ↔
      ∃ n ins', ins = writeUint64 n.toNat ++ ins' ∧ (f n).Returns ins' outs a := by
  rw [reads_readInt.returns_bind]
  constructor
  · rintro ⟨n, _, ys, rfl, rfl, h⟩
    exact ⟨n, ys, rfl, h⟩
  · rintro ⟨n, ins', rfl, h⟩
    exact ⟨n, _, ins', rfl, rfl, h⟩

theorem returns_clientHandshake (h : (clientHandshake client).Returns ins outs v) :
    ∃ wire insFeatures outsFeatures features,
      ins = writeUint64 workerMagic2.toNat ++ (writeUint64 wire.toNat ++ insFeatures) ∧
      outs = writeUint64 workerMagic1.toNat ++
        (writeUint64 client.number.toWire.toNat ++ outsFeatures) ∧
      v = ⟨(Number.fromWire wire).min client.number,
        intersectFeatures features client.features⟩ ∧
      (exchange ((Number.fromWire wire).min client.number) do
        Program.write (writeStrings client.features)
        readStrings).Returns insFeatures outsFeatures features := by
  obtain ⟨_, rfl, h₁⟩ := returns_writeInt_bind.mp h
  obtain ⟨_, rfl, h₂⟩ := returns_writeInt_bind.mp h₁
  obtain ⟨magic, _, rfl, h₃⟩ := returns_readInt_bind.mp h₂
  obtain ⟨hmagic, h₄⟩ := Program.returns_failIf_bind.mp h₃
  obtain ⟨wire, _, rfl, h₅⟩ := returns_readInt_bind.mp h₄
  obtain ⟨-, h₆⟩ := Program.returns_failIf_bind.mp h₅
  obtain ⟨-, h₇⟩ := Program.returns_failIf_bind.mp h₆
  obtain ⟨features, insFeatures, ins', outsFeatures, outs', rfl, rfl, hfeatures, rfl, rfl, rfl⟩ :=
    Program.returns_bind.mp h₇
  refine ⟨wire, insFeatures, outsFeatures, features, ?_, ?_, rfl, hfeatures⟩
  · rw [not_not.mp hmagic, List.append_nil]
  · rw [List.append_nil]

theorem returns_serverHandshake (h : (serverHandshake server).Returns ins outs v) :
    ∃ wire insFeatures outsFeatures features,
      ins = writeUint64 workerMagic1.toNat ++ (writeUint64 wire.toNat ++ insFeatures) ∧
      outs = writeUint64 workerMagic2.toNat ++
        (writeUint64 server.number.toWire.toNat ++ outsFeatures) ∧
      v = ⟨(Number.fromWire wire).min server.number,
        intersectFeatures features server.features⟩ ∧
      (exchange ((Number.fromWire wire).min server.number) do
        let features ← readStrings
        Program.write (writeStrings server.features)
        return features).Returns insFeatures outsFeatures features := by
  obtain ⟨magic, _, rfl, h₁⟩ := returns_readInt_bind.mp h
  obtain ⟨hmagic, h₂⟩ := Program.returns_failIf_bind.mp h₁
  obtain ⟨_, rfl, h₃⟩ := returns_writeInt_bind.mp h₂
  obtain ⟨_, rfl, h₄⟩ := returns_writeInt_bind.mp h₃
  obtain ⟨wire, _, rfl, h₅⟩ := returns_readInt_bind.mp h₄
  obtain ⟨features, insFeatures, ins', outsFeatures, outs', rfl, rfl, hfeatures, rfl, rfl, rfl⟩ :=
    Program.returns_bind.mp h₅
  refine ⟨wire, insFeatures, outsFeatures, features, ?_, ?_, rfl, hfeatures⟩
  · rw [not_not.mp hmagic, List.append_nil]
  · rw [List.append_nil]

theorem append_int_inj {n m : UInt32} {r r' : Bytes} :
    writeUint64 n.toNat ++ r = writeUint64 m.toNat ++ r' ↔ n = m ∧ r = r' := by
  have hn := n.toNat_lt
  have hm := m.toNat_lt
  rw [writeUint64_append_inj (by omega) (by omega), UInt32.toNat_inj]

theorem mem_intersectFeatures {a b : FeatureSet} {f : Bytes} :
    f ∈ intersectFeatures a b ↔ f ∈ a ∧ f ∈ b := by
  rw [intersectFeatures, SortedSet.mem_foldl_insert, List.mem_filter, decide_eq_true_iff]
  exact ⟨fun h => h.resolve_left (SortedSet.not_mem_empty f), .inr⟩

theorem intersectFeatures_comm (a b : FeatureSet) :
    intersectFeatures a b = intersectFeatures b a := by
  apply SortedSet.ext
  intro f
  rw [mem_intersectFeatures, mem_intersectFeatures, and_comm]

theorem inStep_exchange {a b : FeatureSet} (number : Number) (ha : SizeT a) (hb : SizeT b) :
    Program.InStep
      (exchange number do
        Program.write (writeStrings a)
        readStrings)
      (exchange number do
        let features ← readStrings
        Program.write (writeStrings b)
        return features)
      fun fc fs => fc = (if (number.cmp ⟨1, 38⟩).isGE then b else .empty) ∧
        fs = (if (number.cmp ⟨1, 38⟩).isGE then a else .empty) := by
  rw [exchange, exchange]
  split
  next =>
    intro ins outs ins' outs' rest rest' sent sent' fc fs hclient hserver hsent hsent'
    obtain ⟨outs₂, rfl, hread⟩ := Program.returns_write_bind.mp hclient
    obtain ⟨features, ins₁, _, outs₁, _, rfl, rfl, hread', hwrite⟩ :=
      Program.returns_bind.mp hserver
    obtain ⟨_, rfl, rfl, rfl, rfl⟩ := Program.returns_write_bind.mp hwrite
    rw [List.append_nil, List.append_assoc] at hsent'
    obtain ⟨rfl, rfl, rfl⟩ := readStrings_unique ha hread' hsent'
    rw [List.nil_append, List.append_nil] at hsent
    obtain ⟨rfl, rfl, rfl⟩ := readStrings_unique hb hread hsent
    exact ⟨(List.append_nil _).symm, rfl, rfl, rfl⟩
  next => exact Program.InStep.pure ⟨rfl, rfl⟩

/-- What the two handshakes agree on. -/
structure SameVersion (client server v w : Version) : Prop where
  number : v.number = w.number
  features : v.features = exchanged v.number client server
  features' : w.features = v.features

theorem inStep_handshake (hclientFits : client.MajorFits) (hserverFits : server.MajorFits)
    (hclientSize : SizeT client.features) (hserverSize : SizeT server.features) :
    (clientHandshake client).InStep (serverHandshake server) (SameVersion client server) := by
  intro ins outs ins' outs' rest rest' sent sent' v w hclient hserver hsent hsent'
  obtain ⟨wire, insFeatures, outsFeatures, fc, rfl, rfl, rfl, hfc⟩ :=
    returns_clientHandshake hclient
  obtain ⟨wire', insFeatures', outsFeatures', fs, rfl, rfl, rfl, hfs⟩ :=
    returns_serverHandshake hserver
  simp only [List.append_assoc, append_int_inj] at hsent hsent'
  obtain ⟨-, rfl, hsent⟩ := hsent
  obtain ⟨-, rfl, hsent'⟩ := hsent'
  rw [Number.fromWire_toWire hserverFits] at hfc ⊢
  rw [Number.fromWire_toWire hclientFits, Number.min_comm client.number] at hfs ⊢
  obtain ⟨rfl, rfl, rfl, rfl⟩ := inStep_exchange (server.number.min client.number) hclientSize
    hserverSize _ _ _ _ _ _ _ _ fc fs hfc hfs hsent hsent'
  have hfeatures : intersectFeatures
      (if ((server.number.min client.number).cmp ⟨1, 38⟩).isGE then server.features else .empty)
      client.features = exchanged (server.number.min client.number) client server := by
    rw [exchanged]
    split
    next => exact intersectFeatures_comm _ _
    next => rfl
  refine ⟨rfl, rfl, rfl, hfeatures, ?_⟩
  refine Eq.trans ?_ hfeatures.symm
  rw [exchanged]
  split
  next => rfl
  next => rfl

theorem writeUint64_prefix {n m : Nat} {r r' : Bytes}
    (h : writeUint64 n ++ r = writeUint64 m ++ r') : writeUint64 n = writeUint64 m :=
  (List.append_inj h rfl).1

theorem reads_skipInt : skipInt.Reads fun _ bs => ∃ n : UInt32, bs = writeUint64 n.toNat := by
  refine (reads_readInt.bind fun _ => Program.reads_pure ()).congr fun u bs => ?_
  constructor
  · rintro ⟨n, _, _, rfl, rfl, rfl, -⟩
    exact ⟨n, List.append_nil _⟩
  · rintro ⟨n, rfl⟩
    exact ⟨n, _, [], (List.append_nil _).symm, rfl, rfl, rfl⟩

theorem inStep_skipInt (n : UInt32) : (writeInt n).InStep skipInt fun _ _ => True := by
  refine (Program.inStep_write reads_skipInt ?_).mono fun _ _ _ => trivial
  rintro _ _ r r' ⟨m, rfl⟩ h
  exact writeUint64_prefix h

theorem inStep_affinity : (writeInt 0).InStep
    (do
      let affinity ← readInt
      Program.onlyIf (affinity ≠ 0) skipInt) fun _ _ => True := by
  intro ins outs ins' outs' rest rest' sent sent' u u' hwrite hread _ hsent'
  obtain ⟨rfl, rfl⟩ := Program.returns_write.mp hwrite
  obtain ⟨affinity, ins₂, rfl, hskip⟩ := returns_readInt_bind.mp hread
  rw [List.append_assoc, append_int_inj] at hsent'
  obtain ⟨rfl, -⟩ := hsent'
  obtain ⟨rfl, rfl, -⟩ := hskip
  exact ⟨rfl, List.append_nil _, trivial⟩

theorem reads_readTrusted :
    readTrusted.Reads fun trusted bs => bs = writeTrusted trusted := by
  intro ins outs trusted
  rw [readTrusted, (reads_readNum _).returns_bind]
  constructor
  · rintro ⟨n, _, _, rfl, ⟨rfl, -, hn⟩, h⟩
    split at h
    next =>
      obtain ⟨rfl, rfl, rfl⟩ := h
      exact ⟨rfl, List.append_nil _⟩
    next =>
      obtain ⟨rfl, rfl, rfl⟩ := h
      exact ⟨rfl, List.append_nil _⟩
    next =>
      obtain ⟨rfl, rfl, rfl⟩ := h
      exact ⟨rfl, List.append_nil _⟩
    next => cases h
  · rintro ⟨rfl, rfl⟩
    match trusted with
    | none => exact ⟨0, _, [], (List.append_nil _).symm, ⟨rfl, by decide⟩, rfl, rfl, rfl⟩
    | some .trusted => exact ⟨1, _, [], (List.append_nil _).symm, ⟨rfl, by decide⟩, rfl, rfl, rfl⟩
    | some .notTrusted =>
        exact ⟨2, _, [], (List.append_nil _).symm, ⟨rfl, by decide⟩, rfl, rfl, rfl⟩

theorem exists_writeTrusted (trusted : Option TrustedFlag) :
    ∃ n, writeTrusted trusted = writeUint64 n := by
  match trusted with
  | none => exact ⟨0, rfl⟩
  | some .trusted => exact ⟨1, rfl⟩
  | some .notTrusted => exact ⟨2, rfl⟩

theorem inStep_trusted (trusted : Option TrustedFlag) :
    Program.InStep (Program.write (writeTrusted trusted)) readTrusted fun _ _ => True := by
  refine (Program.inStep_write reads_readTrusted ?_).mono fun _ _ _ => trivial
  rintro trusted' _ r r' rfl h
  obtain ⟨n, hn⟩ := exists_writeTrusted trusted
  obtain ⟨m, hm⟩ := exists_writeTrusted trusted'
  rw [hn, hm] at h ⊢
  exact writeUint64_prefix h

theorem inStep_string {s : Bytes} (hs : s.length < 2 ^ 64) :
    Program.InStep (Program.write (writeString s)) readString fun _ _ => True := by
  refine (Program.inStep_write reads_readString ?_).mono fun _ _ _ => trivial
  rintro s' _ r r' ⟨rfl, hs'⟩ h
  rw [((writeString_append_inj hs' hs).mp h).1]

theorem inStep_info {info : ClientHandshakeInfo} (hnumber : v.number = w.number)
    (hsize : ∀ s, info.daemonNixVersion = some s → s.length < 2 ^ 64) :
    (writeInfo w info).InStep (readInfo v) fun _ _ => True := by
  rw [writeInfo, readInfo]
  simp only [Version.ge_number, hnumber]
  refine Program.InStep.bind (R := fun _ _ => True) ?_ fun _ daemonNixVersion _ =>
    Program.InStep.bind_pure (R := fun _ _ => True) ?_ fun _ _ _ => trivial
  · cases (w.number.cmp ⟨1, 33⟩).isGE with
    | false => exact Program.InStep.pure trivial
    | true =>
        cases hinfo : info.daemonNixVersion with
        | none =>
            intro _ _ _ _ _ _ _ _ _ _ h
            cases h
        | some s => exact (inStep_string (hsize s hinfo)).bind_pure fun _ _ _ => trivial
  · cases (w.number.cmp ⟨1, 35⟩).isGE with
    | false => exact Program.InStep.pure trivial
    | true => exact inStep_trusted _

theorem inStep_postHandshake {info : ClientHandshakeInfo} (hnumber : v.number = w.number)
    (hsize : ∀ s, info.daemonNixVersion = some s → s.length < 2 ^ 64) :
    (clientPostHandshake v).InStep (serverPostHandshake info w) fun _ _ => True := by
  rw [clientPostHandshake, serverPostHandshake]
  simp only [Version.ge_number, hnumber]
  refine (inStep_affinity.onlyIf _).bind fun _ _ _ => ?_
  refine ((inStep_skipInt 0).onlyIf _).bind fun _ _ _ => ?_
  exact (inStep_info hnumber hsize).symm

/-- Whatever the order of their reads and writes, client and server agree. -/
theorem agrees_of_reaches {info : ClientHandshakeInfo} {s : Handshake}
    (hclientFits : client.MajorFits) (hserverFits : server.MajorFits)
    (hclientSize : SizeT client.features) (hserverSize : SizeT server.features)
    (hsize : ∀ s, info.daemonNixVersion = some s → s.length < 2 ^ 64)
    (h : Reaches (step info) (fun _ _ => True) (start client server) s) :
    Agrees client server s := by
  obtain ⟨hreturned, hfinished⟩ := inStep_of_reaches
    (inStep_handshake hclientFits hserverFits hclientSize hserverSize)
    (fun v w hsame => inStep_postHandshake hsame.number hsize) h
  refine ⟨fun v w hv hw => (hreturned v w hv hw).number, fun v w hv hw => ?_,
    fun v info w hv hw => (hfinished v w info () hv hw).2⟩
  have hsame := hreturned v w hv hw
  exact ⟨hsame.features, hsame.features'⟩

/-- The sides take turns, with as many steps as given, and the client is first. -/
def turns : List Nat → List Side
  | [] => []
  | [n] => List.replicate n .client
  | n :: m :: ns => List.replicate n .client ++ List.replicate m .server ++ turns ns

def currentInfo : ClientHandshakeInfo where
  daemonNixVersion := some (str "2.35")
  remoteTrustsUs := some .trusted

theorem agrees_latest : ∃ s, Reaches (step currentInfo) (fun _ _ => True) (start latest latest) s ∧
    s.client.finished.isSome ∧ s.server.finished.isSome ∧ Agrees latest latest s := by
  have hrun : (exec (step currentInfo) (fun _ _ => True) (start latest latest)
      (turns [16, 32, 104, 177, 105, 40, 24])).map
        (fun s => (s.client.finished.isSome, s.server.finished.isSome)) = some (true, true) := by
    decide +kernel
  obtain ⟨s, hs, hfinished⟩ := Option.map_eq_some_iff.mp hrun
  obtain ⟨hclient, hserver⟩ := Prod.mk.inj hfinished
  have hreaches : Reaches (step currentInfo) (fun _ _ => True) (start latest latest) s :=
    Reaches.start.exec hs
  have hlatest : SizeT latest.features := ⟨by decide, by decide⟩
  have hfits : latest.MajorFits := show latest.number.major < 256 by decide
  refine ⟨s, hreaches, hclient, hserver, agrees_of_reaches hfits hfits hlatest hlatest
    (fun s hs => ?_) hreaches⟩
  cases hs
  decide

/-- The client takes 1.30 and the server takes 1.20 if the client has version 257.20. And
versions that cannot exchange features have none, whatever they have in common. -/
theorem not_agrees_always :
    (¬∀ client server info s, Reaches (step info) (fun _ _ => True) (start client server) s →
      ∀ v w, s.client.returned = some v → s.server.returned = some w → v.number = w.number) ∧
    ¬∀ client server info s, Reaches (step info) (fun _ _ => True) (start client server) s →
      ∀ v w, s.client.returned = some v → s.server.returned = some w →
        v.features = intersectFeatures client.features server.features := by
  constructor
  · intro h
    have hrun : (exec (step currentInfo) (fun _ _ => True)
        (start { number := ⟨257, 20⟩ } { number := ⟨1, 30⟩ }) (turns [16, 32, 16])).map
          (fun s => (s.client.returned, s.server.returned)) =
        some (some { number := ⟨1, 30⟩ }, some { number := ⟨1, 20⟩ }) := by
      decide
    obtain ⟨s, hs, hreturned⟩ := Option.map_eq_some_iff.mp hrun
    obtain ⟨hclient, hserver⟩ := Prod.mk.inj hreturned
    exact absurd (h _ _ _ s (Reaches.start.exec hs) _ _ hclient hserver) (by decide)
  · intro h
    have hrun : (exec (step currentInfo) (fun _ _ => True)
        (start ⟨⟨1, 18⟩, .ofList [str "a"]⟩ ⟨⟨1, 18⟩, .ofList [str "a"]⟩) (turns [16, 32, 16])).map
          (fun s => (s.client.returned, s.server.returned)) =
        some (some { number := ⟨1, 18⟩ }, some { number := ⟨1, 18⟩ }) := by
      decide
    obtain ⟨s, hs, hreturned⟩ := Option.map_eq_some_iff.mp hrun
    obtain ⟨hclient, hserver⟩ := Prod.mk.inj hreturned
    exact absurd (h _ _ _ s (Reaches.start.exec hs) _ _ hclient hserver) (by decide)

end Nix.Store.WorkerProtos
