import Nix.Util.ArchiveRoundTrip

set_option linter.dupNamespace false

namespace Nix.Util.ArchiveSkip

open Util.Types Util.Serialise Util.StringSource Util.Archive Util.ArchiveGrammar
  Util.ArchiveRoundTrip Lib.PrefixReader

section Relational

variable {σ σ' τ τ' : Type}

/-- From related states the two sources deliver the same bytes. -/
structure SourceRel (R : σ → σ' → Prop) (source : Source σ) (source' : Source σ') : Prop where
  read : ∀ len, Simulates (ε := Error) R Eq (source.read len) (source'.read len)
  skip : ∀ left, Simulates R Eq (skipLeft source left) (skipLeft source' left)
  unread : ∀ s t, R s t → source.unread s = source'.unread t

/-- The same names in the same order, with related values. -/
def EntriesRel (V : τ → τ' → Prop) : List (Bytes × τ) → List (Bytes × τ') → Prop :=
  List.Forall₂ fun e e' => e.1 = e'.1 ∧ V e.2 e'.2

/-- The two sinks build related values from the same calls. -/
structure SinkRel (R : σ → σ' → Prop) (V : τ → τ' → Prop) (sink : FileSystemObjectSink σ τ)
    (sink' : FileSystemObjectSink σ' τ') : Prop where
  skipContents : sink.skipContents = sink'.skipContents
  regular : ∀ x n s t d, R s t → V (sink.regular x n s d) (sink'.regular x n t d)
  directory : ∀ es es', EntriesRel V es es' →
    V (sink.directory es) (sink'.directory es')
  symlink : ∀ target, V (sink.symlink target) (sink'.symlink target)

variable {R : σ → σ' → Prop} {V : τ → τ' → Prop} {source : Source σ} {source' : Source σ'}
  {sink : FileSystemObjectSink σ τ} {sink' : FileSystemObjectSink σ' τ'}

theorem simulates_fill {read : Nat → σ → Except Error (Bytes × σ)}
    {read' : Nat → σ' → Except Error (Bytes × σ')}
    (h : ∀ len, Simulates (ε := Error) R Eq (read len) (read' len)) (cap : Nat → Nat)
    (fuel len : Nat) : Simulates (ε := Error) R Eq (fill read cap fuel len)
      (fill read' cap fuel len) := by
  induction fuel generalizing len with
  | zero =>
      cases len with
      | zero => exact fun _ _ hR => ⟨rfl, hR⟩
      | succ len => exact fun _ _ _ => rfl
  | succ fuel ih =>
      cases len with
      | zero => exact fun _ _ hR => ⟨rfl, hR⟩
      | succ len =>
          exact (h (cap (len + 1))).bind_eq fun chunk =>
            (ih (len + 1 - chunk.length)).bind_eq fun rest => Simulates.pure rfl

section Tokens

variable (hsource : SourceRel R source source')
include hsource

theorem simulates_readNum (max : Nat) :
    Simulates R Eq (readNum source max) (readNum source' max) :=
  Simulates.bind_eq (simulates_fill hsource.read id 8 8) fun _ =>
    (Simulates.throwIf _ _).bind_eq fun _ => Simulates.pure rfl

theorem simulates_readPadding (len : Nat) :
    Simulates R Eq (readPadding source len) (readPadding source' len) := by
  unfold readPadding
  split
  · exact Simulates.bind_eq (simulates_fill hsource.read id _ _) fun _ => Simulates.throwIf _ _
  · exact Simulates.pure rfl

theorem simulates_readString (max : Nat) :
    Simulates R Eq (readString source max) (readString source' max) :=
  (simulates_readNum hsource _).bind_eq fun len =>
    (Simulates.throwIf _ _).bind_eq fun _ =>
      Simulates.bind_eq (simulates_fill hsource.read id len len) fun _ =>
        (simulates_readPadding hsource len).bind_eq fun _ => Simulates.pure rfl

theorem simulates_expectTag (expected : String) :
    Simulates R Eq (expectTag source expected) (expectTag source' expected) :=
  Simulates.bind_eq (simulates_readString hsource _) fun _ => Simulates.throwIf _ _

theorem simulates_parseExecutable (tag : Bytes) :
    Simulates R Eq (parseExecutable source tag) (parseExecutable source' tag) := by
  unfold parseExecutable
  split
  · exact Simulates.bind_eq (simulates_readString hsource _) fun _ =>
      (Simulates.throwIf _ _).bind_eq fun _ =>
        Simulates.bind_eq (simulates_readString hsource _) fun _ => Simulates.pure rfl
  · exact Simulates.pure rfl

theorem simulates_parseContents (skipContents : Bool) :
    Simulates R (fun r r' => r.1 = r'.1 ∧ R r.2.1 r'.2.1 ∧ r.2.2 = r'.2.2)
      (parseContents source skipContents) (parseContents source' skipContents) := by
  refine (simulates_readNum hsource _).bind_eq fun size => ?_
  have hget : Simulates R R (get : Reader σ Error σ) get := fun _ _ hR => ⟨hR, hR⟩
  refine hget.bind fun start start' hstart => ?_
  cases skipContents with
  | true =>
      have hlift : Simulates R Eq (liftM (alignUp size 8) : Reader σ Error Nat)
          (liftM (alignUp size 8)) := by
        intro s t hR
        cases alignUp size 8 with
        | error _ => rfl
        | ok _ => exact ⟨rfl, hR⟩
      exact hlift.bind_eq fun left =>
        (hsource.skip left).bind_eq fun _ => Simulates.pure ⟨rfl, hstart, rfl⟩
  | false =>
      exact Simulates.bind_eq (simulates_fill hsource.read _ size size) fun _ =>
        (simulates_readPadding hsource size).bind_eq fun _ => Simulates.pure ⟨rfl, hstart, rfl⟩

theorem simulates_readVersion : Simulates R Eq (readVersion source) (readVersion source') := by
  intro s t hR
  have hread := simulates_readString hsource narVersionMagic1.length s t hR
  unfold readVersion
  cases hs : readString source narVersionMagic1.length s with
  | ok x =>
      cases ht : readString source' narVersionMagic1.length t with
      | ok y => simpa only [hs, ht] using hread
      | error e => simp [hs, ht, OutcomeRel] at hread
  | error e =>
      cases ht : readString source' narVersionMagic1.length t with
      | ok y => simp [hs, ht, OutcomeRel] at hread
      | error e' =>
          obtain rfl : e = e' := by simpa [hs, ht, OutcomeRel] using hread
          dsimp only
          split
          · exact ⟨rfl, hR⟩
          · rfl

end Tokens

section Objects

variable (hsource : SourceRel R source source') (hsink : SinkRel R V sink sink')
include hsource hsink

theorem simulates_parseRegular :
    Simulates R V (parseRegular sink source) (parseRegular sink' source') := by
  refine Simulates.bind_eq (simulates_readString hsource _) fun tag => ?_
  refine (simulates_parseExecutable hsource tag).bind_eq fun r => ?_
  refine (Simulates.throwIf _ _).bind_eq fun _ => ?_
  rw [hsink.skipContents]
  refine (simulates_parseContents hsource _).bind fun c c' hc => ?_
  obtain ⟨size, start, contents⟩ := c
  obtain ⟨size', start', contents'⟩ := c'
  obtain ⟨rfl, hstart, rfl⟩ := hc
  exact (simulates_expectTag hsource _).bind_eq fun _ =>
    Simulates.pure (hsink.regular _ _ _ _ _ hstart)

theorem simulates_parseSymlink :
    Simulates R V (parseSymlink sink source) (parseSymlink sink' source') :=
  (simulates_expectTag hsource _).bind_eq fun _ =>
    Simulates.bind_eq (simulates_readString hsource _) fun target =>
      (Simulates.throwIf _ _).bind_eq fun _ =>
        (simulates_expectTag hsource _).bind_eq fun _ => Simulates.pure (hsink.symlink target)

end Objects

/-- The loops over two directories have seen the same names. -/
structure DirRel (V : τ → τ' → Prop) (st : DirState τ) (st' : DirState τ') : Prop where
  names : st.names = st'.names
  prevName : st.prevName = st'.prevName
  entries : EntriesRel V st.entries st'.entries

theorem simulates_parseEntry (useCaseHack : Bool) (hsource : SourceRel R source source')
    {child : Reader σ Error τ} {child' : Reader σ' Error τ'} (hchild : Simulates R V child child')
    {st : DirState τ} {st' : DirState τ'} (hst : DirRel V st st') :
    Simulates R (Sum.LiftRel (DirRel V) (EntriesRel V))
      (parseEntry useCaseHack source child st) (parseEntry useCaseHack source' child' st') := by
  obtain ⟨names, prevName, entries⟩ := st
  obtain ⟨names', prevName', entries'⟩ := st'
  obtain ⟨hnames, hprev, hentries⟩ := hst
  simp only at hnames hprev hentries
  subst hnames hprev
  refine Simulates.bind_eq (simulates_readString hsource _) fun tag => ?_
  dsimp only
  split
  · exact Simulates.pure (.inr hentries)
  · refine (Simulates.throwIf _ _).bind_eq fun _ => ?_
    refine (simulates_expectTag hsource _).bind_eq fun _ => ?_
    refine (simulates_expectTag hsource _).bind_eq fun _ => ?_
    refine Simulates.bind_eq (simulates_readString hsource _) fun name => ?_
    refine (Simulates.throwIf _ _).bind_eq fun _ => ?_
    refine (Simulates.throwIf _ _).bind_eq fun _ => ?_
    have hlift : Simulates R Eq
        (liftM (hackName useCaseHack names name) : Reader σ Error (Bytes × List (Bytes × Nat)))
        (liftM (hackName useCaseHack names name)) := by
      intro s t hR
      cases hackName useCaseHack names name with
      | error _ => rfl
      | ok _ => exact ⟨rfl, hR⟩
    refine hlift.bind_eq fun r => ?_
    refine (simulates_expectTag hsource _).bind_eq fun _ => ?_
    refine hchild.bind fun node node' hnode => ?_
    refine (simulates_expectTag hsource _).bind_eq fun _ => ?_
    exact Simulates.pure (.inl ⟨rfl, rfl,
      List.rel_append hentries (.cons ⟨rfl, hnode⟩ .nil)⟩)

theorem simulates_parse (useCaseHack : Bool) (hsource : SourceRel R source source')
    (hsink : SinkRel R V sink sink') (levels : Nat) :
    Simulates R V (parse useCaseHack sink source levels)
      (parse useCaseHack sink' source' levels) := by
  induction levels with
  | zero => exact Simulates.throw _
  | succ levels ih =>
      refine (simulates_expectTag hsource _).bind_eq fun _ => ?_
      refine (simulates_expectTag hsource _).bind_eq fun _ => ?_
      refine Simulates.bind_eq (simulates_readString hsource _) fun type => ?_
      split
      · exact simulates_parseRegular hsource hsink
      · split
        · have hloop : Simulates R (EntriesRel V)
              (loop source.unread .diverges
                (parseEntry useCaseHack source (parse useCaseHack sink source levels)) {})
              (loop source'.unread .diverges
                (parseEntry useCaseHack source' (parse useCaseHack sink' source' levels)) {}) :=
            Simulates.loop (I := DirRel V)
              (fun st st' hst => simulates_parseEntry useCaseHack hsource ih hst)
              hsource.unread ⟨rfl, rfl, .nil⟩
          exact hloop.bind fun es es' hes => Simulates.pure (hsink.directory es es' hes)
        · split
          · exact simulates_parseSymlink hsource hsink
          · exact Simulates.throw _

theorem simulates_parseDump (useCaseHack : Bool) (hsource : SourceRel R source source')
    (hsink : SinkRel R V sink sink') :
    Simulates R V (parseDump useCaseHack sink source) (parseDump useCaseHack sink' source') :=
  (simulates_readVersion hsource).bind_eq fun _ =>
    (Simulates.throwIf _ _).bind_eq fun _ => simulates_parse useCaseHack hsource hsink _

end Relational

def discardSink {σ : Type} (skipContents : Bool) : FileSystemObjectSink σ Unit where
  skipContents := skipContents
  regular _ _ _ _ := ()
  directory _ := ()
  symlink _ := ()

theorem sinkRel_discardSink {σ τ : Type} (R : σ → σ → Prop) (sink : FileSystemObjectSink σ τ) :
    SinkRel R (fun _ _ => True) sink (discardSink sink.skipContents) where
  skipContents := rfl
  regular _ _ _ _ _ _ := trivial
  directory _ _ _ := trivial
  symlink _ := trivial

theorem sourceRel_refl {σ : Type} (source : Source σ) : SourceRel Eq source source where
  read len := by
    rintro s _ rfl
    cases h : source.read len s with
    | error _ => simp [OutcomeRel]
    | ok _ => simp [OutcomeRel]
  skip left := by
    rintro s _ rfl
    cases h : skipLeft source left s with
    | error _ => simp [OutcomeRel]
    | ok _ => simp [OutcomeRel]
  unread := by
    rintro s _ rfl
    rfl

theorem OutcomeRel.exists_ok {ε α β σ σ' : Type} {R : σ → σ' → Prop} {V : α → β → Prop}
    {x : Except ε (α × σ)} {y : Except ε (β × σ')} (h : OutcomeRel R V x y) :
    (∀ a s, x = .ok (a, s) → ∃ b t, y = .ok (b, t) ∧ R s t) ∧
      ∀ b t, y = .ok (b, t) → ∃ a s, x = .ok (a, s) ∧ R s t := by
  cases x with
  | error _ =>
      cases y with
      | error _ => exact ⟨fun _ _ h => by simp at h, fun _ _ h => by simp at h⟩
      | ok _ => exact h.elim
  | ok r =>
      cases y with
      | error _ => exact h.elim
      | ok r' =>
          obtain ⟨-, hR⟩ := h
          refine ⟨?_, ?_⟩
          · rintro a s ⟨⟩
            exact ⟨r'.1, r'.2, rfl, hR⟩
          · rintro b t ⟨⟩
            exact ⟨r.1, r.2, rfl, hR⟩

section Acceptance

variable {useCaseHack : Bool}

theorem parseDump_accepts_iff {τ : Type} {sink : FileSystemObjectSink Bytes τ} {s rest : Bytes} :
    (∃ a, parseDump useCaseHack sink stringSource s = .ok (a, rest)) ↔
      ∃ node : Node, node.Valid useCaseHack (ContentsOk sink.skipContents) narMaxDepth ∧
        s = archiveBytes node ++ rest := by
  have hrel := simulates_parseDump useCaseHack (sourceRel_refl stringSource)
    (sinkRel_discardSink Eq sink) s s rfl
  obtain ⟨hto, hfrom⟩ := OutcomeRel.exists_ok hrel
  have hlang := @recognises_parseDump Unit useCaseHack (discardSink sink.skipContents)
    (fun _ _ _ _ _ => rfl) [] s () rest
  constructor
  · rintro ⟨a, ha⟩
    obtain ⟨_, _, hb, rfl⟩ := hto a rest ha
    obtain ⟨_, rfl, node, hvalid, -, rfl⟩ := hlang.mp hb
    exact ⟨node, hvalid, rfl⟩
  · rintro ⟨node, hvalid, rfl⟩
    obtain ⟨a, _, ha, rfl⟩ := hfrom () rest (hlang.mpr ⟨_, rfl, node, hvalid, rfl, rfl⟩)
    exact ⟨a, ha⟩

/-- A `TeeSource` over a string has written what is gone from the string. -/
def Forwarded (orig s : Bytes) (t : Bytes × Bytes) : Prop :=
  t.1 = s ∧ t.2 ++ s = orig

theorem sourceRel_teeSource (orig : Bytes) :
    SourceRel (Forwarded orig) stringSource (teeSource stringSource) := by
  have hread : ∀ len, Simulates (ε := Error) (Forwarded orig) Eq (stringSource.read len)
      (teeSource.teeRead stringSource len) := by
    rintro len s ⟨s', out⟩ ⟨hs', horig⟩
    obtain rfl : s' = s := hs'
    dsimp only at horig
    by_cases hs : s' = []
    · simp [stringSource, teeSource.teeRead, hs, bind, Except.bind, OutcomeRel]
    · simp [stringSource, teeSource.teeRead, hs, bind, Except.bind, pure, Except.pure,
        OutcomeRel, Forwarded, horig]
  refine ⟨hread, ?_, ?_⟩
  · intro left s t hR
    unfold skipLeft
    split
    · exact ⟨rfl, hR⟩
    · have hfill := simulates_fill hread (min · 8192) left left s t hR
      have hskip := skipByReading_stringSource left s
      rw [← hskip]
      change OutcomeRel _ _ ((Source.skipByReading stringSource.read left s).map _)
        ((Source.skipByReading (teeSource.teeRead stringSource) left t).map _)
      unfold Source.skipByReading
      cases hx : fill stringSource.read (min · 8192) left left s with
      | error _ =>
          cases hy : fill (teeSource.teeRead stringSource) (min · 8192) left left t with
          | error _ =>
              simpa [hx, hy, bind, Except.bind, Except.map, OutcomeRel] using hfill
          | ok _ => simp [hx, hy, OutcomeRel] at hfill
      | ok _ =>
          cases hy : fill (teeSource.teeRead stringSource) (min · 8192) left left t with
          | error _ => simp [hx, hy, OutcomeRel] at hfill
          | ok _ =>
              simp only [hx, hy, OutcomeRel] at hfill
              exact ⟨rfl, hfill.2⟩
  · rintro s ⟨_, _⟩ ⟨rfl, -⟩
    rfl

/-- `copyNAR` accepts what a skipping sink accepts and writes what it consumed. -/
theorem copyNAR_eq_ok {s rest out : Bytes} :
    copyNAR useCaseHack stringSource (s, []) = .ok ((), rest, out) ↔
      (∃ node : Node, node.Valid useCaseHack (ContentsOk true) narMaxDepth ∧
        s = archiveBytes node ++ rest) ∧ s = out ++ rest := by
  have hrel := simulates_parseDump useCaseHack (sourceRel_teeSource s)
    (⟨rfl, fun _ _ _ _ _ _ => trivial, fun _ _ _ => trivial, fun _ => trivial⟩ :
      SinkRel (Forwarded s) (fun _ _ => True) (discardSink true) nullFileSystemObjectSink)
    s (s, []) ⟨rfl, rfl⟩
  obtain ⟨hto, hfrom⟩ := OutcomeRel.exists_ok hrel
  have haccept := @parseDump_accepts_iff useCaseHack Unit (discardSink true) s rest
  constructor
  · intro h
    obtain ⟨a, t, ha, hR⟩ := hfrom _ _ h
    obtain ⟨rfl, hout⟩ := hR
    exact ⟨haccept.mp ⟨a, ha⟩, hout.symm⟩
  · rintro ⟨haccepted, hout⟩
    obtain ⟨a, ha⟩ := haccept.mpr haccepted
    obtain ⟨_, ⟨rest', out'⟩, hb, hR⟩ := hto _ _ ha
    obtain ⟨hrest, hwritten⟩ := hR
    dsimp only at hrest hwritten
    subst hrest
    have heq : out' = out := List.append_cancel_right (hwritten.trans hout)
    rw [← heq]
    exact hb

end Acceptance

theorem token_append_inj {a b : String} {r r' : Bytes} (ha : (str a).length ≤ narMaxTag)
    (hb : (str b).length ≤ narMaxTag) :
    writeString (str a) ++ r = writeString (str b) ++ r' ↔ str a = str b ∧ r = r' := by
  unfold narMaxTag at ha hb
  exact writeString_append_inj (by omega) (by omega)

theorem contents_append_inj {x x' : Bool} {data data' pad pad' r r' : Bytes}
    (h : Shaped data pad) (h' : Shaped data' pad')
    (heq : executableTokens x ++ (writeString (str "contents") ++
        (writeUint64 data.length ++ (data ++ (pad ++ r)))) =
      executableTokens x' ++ (writeString (str "contents") ++
        (writeUint64 data'.length ++ (data' ++ (pad' ++ r'))))) :
    x = x' ∧ data = data' ∧ pad = pad' ∧ r = r' := by
  have hflag : x = x' ∧ writeUint64 data.length ++ (data ++ (pad ++ r)) =
      writeUint64 data'.length ++ (data' ++ (pad' ++ r')) := by
    cases x <;> cases x' <;>
      simp only [executableTokens, Bool.false_eq_true, if_false, if_true, List.nil_append,
        tokens_cons, tokens_nil, List.append_nil, List.append_assoc] at heq
    · exact ⟨rfl, ((token_append_inj (by decide) (by decide)).mp heq).2⟩
    · exact absurd ((token_append_inj (by decide) (by decide)).mp heq).1 (by decide)
    · exact absurd ((token_append_inj (by decide) (by decide)).mp heq).1 (by decide)
    · have hnil := ((token_append_inj (by decide) (by decide)).mp heq).2
      have hcontents := ((writeString_append_inj (by simp) (by simp)).mp hnil).2
      exact ⟨rfl, ((token_append_inj (by decide) (by decide)).mp hcontents).2⟩
  obtain ⟨rfl, hsize⟩ := hflag
  obtain ⟨hlen, hdata⟩ := (writeUint64_append_inj h.1 h'.1).mp hsize
  obtain ⟨rfl, hpad⟩ := List.append_inj hdata hlen
  obtain ⟨rfl, hr⟩ := List.append_inj hpad (by rw [h.2, h'.2])
  exact ⟨rfl, rfl, rfl, hr⟩

def Node.kind : Node → String
  | .regular _ _ _ => "regular"
  | .directory _ => "directory"
  | .symlink _ => "symlink"

/-- What follows the type tag of a tree, up to `r`. -/
def Node.body (r : Bytes) : Node → Bytes
  | .regular x data pad =>
      executableTokens x ++ (writeString (str "contents") ++
        (writeUint64 data.length ++ (data ++ (pad ++ (writeString (str ")") ++ r)))))
  | .directory entries => entriesBytes entries ++ (writeString (str ")") ++ r)
  | .symlink target =>
      writeString (str "target") ++ (writeString target ++ (writeString (str ")") ++ r))

theorem bytes_append (node : Node) (r : Bytes) :
    node.bytes ++ r = writeString (str "(") ++ (writeString (str "type") ++
      (writeString (str (Node.kind node)) ++ Node.body r node)) := by
  cases node <;> simp [Node.bytes, Node.kind, Node.body]

/-- The lengths in a parse tree have 64 bits, and the padding of its files has its length. -/
inductive Bounded : Node → Prop
  | regular {isExecutable : Bool} {data pad : Bytes} (h : Shaped data pad) :
      Bounded (.regular isExecutable data pad)
  | directory {entries : List (Bytes × Node)} (names : ∀ e ∈ entries, e.1.length < 2 ^ 64)
      (children : ∀ e ∈ entries, Bounded e.2) : Bounded (.directory entries)
  | symlink {target : Bytes} (h : target.length < 2 ^ 64) : Bounded (.symlink target)

theorem Bounded.of_valid {useCaseHack : Bool} {C : Bytes → Bytes → Prop}
    (hshaped : ∀ data pad, C data pad → Shaped data pad) {levels : Nat} {node : Node}
    (h : node.Valid useCaseHack C levels) : Bounded node := by
  induction levels generalizing node with
  | zero => exact h.elim
  | succ levels ih =>
      cases node with
      | regular x data pad => exact .regular (hshaped data pad h)
      | directory entries =>
          refine .directory (fun e he => ?_) fun e he => ih (h.2.2 e he).2
          have hlen := (h.2.2 e he).1.length_le
          unfold narMaxName at hlen
          omega
      | symlink target =>
          have hlen := h.2.2
          unfold narMaxTarget at hlen
          exact .symlink (by omega)

theorem entriesBytes_append_inj {entries entries' : List (Bytes × Node)} {r r' : Bytes}
    (hnode : ∀ e ∈ entries, ∀ n' s s', Bounded n' → e.2.bytes ++ s = n'.bytes ++ s' →
      e.2 = n' ∧ s = s')
    (hnames : ∀ e ∈ entries, e.1.length < 2 ^ 64)
    (hnames' : ∀ e ∈ entries', e.1.length < 2 ^ 64) (hall' : ∀ e ∈ entries', Bounded e.2)
    (heq : entriesBytes entries ++ (writeString (str ")") ++ r) =
      entriesBytes entries' ++ (writeString (str ")") ++ r')) :
    entries = entries' ∧ r = r' := by
  induction entries generalizing entries' with
  | nil =>
      cases entries' with
      | nil => exact ⟨rfl, ((token_append_inj (by decide) (by decide)).mp heq).2⟩
      | cons e' entries' =>
          simp only [entriesBytes, tokens_cons, List.append_assoc, List.nil_append] at heq
          exact absurd ((token_append_inj (by decide) (by decide)).mp heq).1 (by decide)
  | cons e entries ih =>
      cases entries' with
      | nil =>
          simp only [entriesBytes, tokens_cons, List.append_assoc, List.nil_append] at heq
          exact absurd ((token_append_inj (by decide) (by decide)).mp heq).1 (by decide)
      | cons e' entries' =>
          obtain ⟨hnode, hnodes⟩ := List.forall_mem_cons.mp hnode
          obtain ⟨hlen, hnames⟩ := List.forall_mem_cons.mp hnames
          obtain ⟨hlen', hnames'⟩ := List.forall_mem_cons.mp hnames'
          obtain ⟨hbounded, hall'⟩ := List.forall_mem_cons.mp hall'
          simp only [entriesBytes, tokens_cons, tokens_nil, List.append_assoc,
            List.append_nil] at heq
          have hopen := ((token_append_inj (by decide) (by decide)).mp heq).2
          have htag := ((token_append_inj (by decide) (by decide)).mp hopen).2
          have hname := ((token_append_inj (by decide) (by decide)).mp htag).2
          obtain ⟨hn, hrest⟩ := (writeString_append_inj hlen hlen').mp hname
          have hchild := ((token_append_inj (by decide) (by decide)).mp hrest).2
          obtain ⟨hsub, hclose⟩ := hnode _ _ _ hbounded hchild
          have htail := ((token_append_inj (by decide) (by decide)).mp hclose).2
          obtain ⟨rfl, hr⟩ := ih hnodes hnames hnames' hall' htail
          exact ⟨by rw [Prod.ext hn hsub], hr⟩

theorem kind_append_inj {node node' : Node} {r r' : Bytes}
    (heq : node.bytes ++ r = node'.bytes ++ r') :
    str (Node.kind node) = str (Node.kind node') ∧ Node.body r node = Node.body r' node' := by
  have htag : ∀ n : Node, (str (Node.kind n)).length ≤ narMaxTag := by
    intro n
    cases n <;> simp only [Node.kind] <;> decide
  rw [bytes_append, bytes_append] at heq
  have hopen := ((token_append_inj (by decide) (by decide)).mp heq).2
  have htype := ((token_append_inj (by decide) (by decide)).mp hopen).2
  exact (token_append_inj (htag node) (htag node')).mp htype

theorem bytes_append_inj {node node' : Node} {r r' : Bytes} (h : Bounded node)
    (h' : Bounded node') (heq : node.bytes ++ r = node'.bytes ++ r') :
    node = node' ∧ r = r' := by
  induction h generalizing node' r r' with
  | @regular x data pad hshaped =>
      obtain ⟨hkind, hbody⟩ := kind_append_inj heq
      cases h' with
      | regular hshaped' =>
          obtain ⟨rfl, rfl, rfl, hclose⟩ := contents_append_inj hshaped hshaped' hbody
          exact ⟨rfl, ((token_append_inj (by decide) (by decide)).mp hclose).2⟩
      | directory => exact absurd hkind (by simp only [Node.kind]; decide)
      | symlink => exact absurd hkind (by simp only [Node.kind]; decide)
  | directory names children ih =>
      obtain ⟨hkind, hbody⟩ := kind_append_inj heq
      cases h' with
      | directory names' children' =>
          obtain ⟨rfl, hr⟩ := entriesBytes_append_inj
            (fun e he _ _ _ hbounded => ih e he hbounded) names names' children' hbody
          exact ⟨rfl, hr⟩
      | regular => exact absurd hkind (by simp only [Node.kind]; decide)
      | symlink => exact absurd hkind (by simp only [Node.kind]; decide)
  | symlink hlen =>
      obtain ⟨hkind, hbody⟩ := kind_append_inj heq
      cases h' with
      | symlink hlen' =>
          have htarget := ((token_append_inj (by decide) (by decide)).mp hbody).2
          obtain ⟨rfl, hclose⟩ := (writeString_append_inj hlen hlen').mp htarget
          exact ⟨rfl, ((token_append_inj (by decide) (by decide)).mp hclose).2⟩
      | regular => exact absurd hkind (by simp only [Node.kind]; decide)
      | directory => exact absurd hkind (by simp only [Node.kind]; decide)

mutual

/-- The contents and the padding of the files in a tree. -/
def Node.files : Node → List (Bytes × Bytes)
  | .regular _ data pad => [(data, pad)]
  | .directory entries => entriesFiles entries
  | .symlink _ => []

def entriesFiles : List (Bytes × Node) → List (Bytes × Bytes)
  | [] => []
  | (_, node) :: entries => Node.files node ++ entriesFiles entries

end

theorem mem_entriesFiles {entries : List (Bytes × Node)} {f : Bytes × Bytes} :
    f ∈ entriesFiles entries ↔ ∃ e ∈ entries, f ∈ Node.files e.2 := by
  induction entries with
  | nil => simp [entriesFiles]
  | cons e entries ih => simp [entriesFiles, ih]

theorem valid_and_files_iff {useCaseHack : Bool} {C D : Bytes → Bytes → Prop} {levels : Nat}
    {node : Node} :
    node.Valid useCaseHack (fun data pad => C data pad ∧ D data pad) levels ↔
      node.Valid useCaseHack C levels ∧ ∀ f ∈ Node.files node, D f.1 f.2 := by
  induction levels generalizing node with
  | zero => simp [Node.Valid]
  | succ levels ih =>
      cases node with
      | regular x data pad => simp [Node.Valid, Node.files]
      | directory entries =>
          simp only [Node.Valid, Node.files, mem_entriesFiles, ih]
          constructor
          · rintro ⟨hsorted, hsome, hall⟩
            refine ⟨⟨hsorted, hsome, fun e he => ⟨(hall e he).1, (hall e he).2.1⟩⟩, ?_⟩
            rintro f ⟨e, he, hf⟩
            exact (hall e he).2.2 f hf
          · rintro ⟨⟨hsorted, hsome, hall⟩, hfiles⟩
            exact ⟨hsorted, hsome, fun e he =>
              ⟨(hall e he).1, (hall e he).2, fun f hf => hfiles f ⟨e, he, hf⟩⟩⟩
      | symlink target => simp [Node.Valid, Node.files]

/-- Every file is followed by the padding that the writer emits. -/
def ZeroPadded (node : Node) : Prop :=
  ∀ f ∈ Node.files node, f.2 = writePadding f.1.length

/-- The size of every file can be rounded up to a multiple of eight. -/
def Alignable (node : Node) : Prop :=
  ∀ f ∈ Node.files node, f.1.length ≤ 2 ^ 64 - 8

theorem valid_reading_iff {useCaseHack : Bool} {node : Node} :
    node.Valid useCaseHack (ContentsOk false) narMaxDepth ↔
      node.Valid useCaseHack Shaped narMaxDepth ∧ ZeroPadded node :=
  @valid_and_files_iff useCaseHack Shaped (fun data pad => pad = writePadding data.length)
    narMaxDepth node

theorem valid_skipping_iff {useCaseHack : Bool} {node : Node} :
    node.Valid useCaseHack (ContentsOk true) narMaxDepth ↔
      node.Valid useCaseHack Shaped narMaxDepth ∧ Alignable node :=
  @valid_and_files_iff useCaseHack Shaped (fun data _ => data.length ≤ 2 ^ 64 - 8)
    narMaxDepth node

/-- The two modes accept the same, consume the same, and `copyNAR` writes what
was consumed. -/
structure ModesAgree (useCaseHack : Bool) (s : Bytes) : Prop where
  accepts : ∀ {τ τ' : Type} (skipping : FileSystemObjectSink Bytes τ)
    (reading : FileSystemObjectSink Bytes τ'), skipping.skipContents = true →
    reading.skipContents = false → ∀ rest,
      (∃ a, parseDump useCaseHack skipping stringSource s = .ok (a, rest)) ↔
        ∃ b, parseDump useCaseHack reading stringSource s = .ok (b, rest)
  copies : ∀ rest out,
    copyNAR useCaseHack stringSource (s, []) = .ok ((), rest, out) ↔
      (∃ a, parseDump useCaseHack memorySink stringSource s = .ok (a, rest)) ∧ s = out ++ rest

/-- The two modes agree on exactly the inputs that do not start with an archive
of which one mode minds the padding or the size of a file and the other does
not. -/
theorem modesAgree_iff (useCaseHack : Bool) (s : Bytes) :
    ModesAgree useCaseHack s ↔
      ∀ (node : Node) (rest : Bytes), node.Valid useCaseHack Shaped narMaxDepth →
        s = archiveBytes node ++ rest → (ZeroPadded node ↔ Alignable node) := by
  constructor
  · rintro ⟨haccepts, -⟩ node rest hshaped hs
    have hmodes := haccepts (discardSink true) (discardSink false) rfl rfl rest
    rw [parseDump_accepts_iff, parseDump_accepts_iff] at hmodes
    have hunique : ∀ node' : Node, node'.Valid useCaseHack Shaped narMaxDepth →
        s = archiveBytes node' ++ rest → node' = node := by
      intro node' hshaped' hs'
      rw [hs, archiveBytes, archiveBytes, List.append_assoc, List.append_assoc] at hs'
      exact (bytes_append_inj (.of_valid (fun _ _ h => h) hshaped')
        (.of_valid (fun _ _ h => h) hshaped) (List.append_cancel_left hs').symm).1
    constructor
    · intro hzero
      obtain ⟨node', hvalid, hs'⟩ := hmodes.mpr ⟨node, valid_reading_iff.mpr ⟨hshaped, hzero⟩, hs⟩
      obtain ⟨hshaped', halign⟩ := valid_skipping_iff.mp hvalid
      exact hunique node' hshaped' hs' ▸ halign
    · intro halign
      obtain ⟨node', hvalid, hs'⟩ := hmodes.mp ⟨node, valid_skipping_iff.mpr ⟨hshaped, halign⟩, hs⟩
      obtain ⟨hshaped', hzero⟩ := valid_reading_iff.mp hvalid
      exact hunique node' hshaped' hs' ▸ hzero
  · intro h
    have hmodes : ∀ rest,
        (∃ node : Node, node.Valid useCaseHack (ContentsOk true) narMaxDepth ∧
          s = archiveBytes node ++ rest) ↔
        ∃ node : Node, node.Valid useCaseHack (ContentsOk false) narMaxDepth ∧
          s = archiveBytes node ++ rest := by
      intro rest
      constructor
      · rintro ⟨node, hvalid, hs⟩
        obtain ⟨hshaped, halign⟩ := valid_skipping_iff.mp hvalid
        exact ⟨node, valid_reading_iff.mpr ⟨hshaped, (h node rest hshaped hs).mpr halign⟩, hs⟩
      · rintro ⟨node, hvalid, hs⟩
        obtain ⟨hshaped, hzero⟩ := valid_reading_iff.mp hvalid
        exact ⟨node, valid_skipping_iff.mpr ⟨hshaped, (h node rest hshaped hs).mp hzero⟩, hs⟩
    constructor
    · intro τ τ' skipping reading hskip hread rest
      rw [parseDump_accepts_iff, parseDump_accepts_iff, hskip, hread]
      exact hmodes rest
    · intro rest out
      rw [copyNAR_eq_ok, parseDump_accepts_iff]
      exact and_congr_left fun _ => hmodes rest

/-- The archive of a file `a`, padded with ones. -/
def onesNode : Node :=
  .regular false (str "a") [1, 1, 1, 1, 1, 1, 1]

/-- A skipping sink accepts it and a reading sink does not. -/
theorem not_modesAgree_onesNode : ¬ModesAgree false (archiveBytes onesNode) := by
  rintro ⟨haccepts, -⟩
  have hmodes := haccepts (discardSink true) (discardSink false) rfl rfl []
  have hskip : parseDump false (discardSink true) stringSource (archiveBytes onesNode) =
      .ok ((), []) := rfl
  have hread : parseDump false (discardSink false) stringSource (archiveBytes onesNode) =
      .error ⟨.serialisationError, ⟨"non-zero padding", []⟩⟩ := rfl
  obtain ⟨b, hb⟩ := hmodes.mp ⟨(), hskip⟩
  rw [hread] at hb
  simp at hb

end Nix.Util.ArchiveSkip
