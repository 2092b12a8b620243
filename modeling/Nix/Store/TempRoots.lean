import Nix.Lib.Transitions
import Nix.Store.Path

set_option linter.dupNamespace false

namespace Nix.Store.TempRoots

open Util.Types Lib.Transitions Store.Path

/-! ### Clients -/

/-- How far a message to the root server has come. -/
inductive Progress
  | sent
  | received
  | acknowledged
  deriving DecidableEq

/-- Where a client is in `addTempRoot(path)`. Runs of the collector are numbered. -/
inductive ClientPc
  | outside
  | creating (path : StorePath)
  | restart (path : StorePath)
  | connecting (path : StorePath)
  | waiting (path : StorePath) (run : Nat) (progress : Progress)
  | acked (path : StorePath) (run : Nat)
  | locked (path : StorePath)
  | recorded (path : StorePath)
  deriving DecidableEq

/-- The temporary roots file of a client. It is stale when a collector got the lock before
the client did, unlinked it and wrote "d". -/
inductive TempRootsFile
  | absent
  | opened
  | stale
  | owned (contents : List StorePath)
  deriving DecidableEq

def TempRootsFile.contents : TempRootsFile → List StorePath
  | .owned contents => contents
  | _ => []

/-- The roots server that a socket is connected to is the one of a run. -/
structure Client where
  alive : Bool := true
  pc : ClientPc := .outside
  fdTempRoots : TempRootsFile := .absent
  fdRootsSocket : Option Nat := none
  returned : List StorePath := []

/-! ### Runs of the collector -/

inductive Phase
  | waiting
  | locked
  | serving
  | scanning (remaining : List Nat)
  | deleting
  | stopped
  | finished
  deriving DecidableEq

def Phase.holdsLock : Phase → Bool
  | .waiting => false
  | .finished => false
  | _ => true

def Phase.serves : Phase → Bool
  | .serving => true
  | .scanning _ => true
  | .deleting => true
  | _ => false

/-- `tempRoots` has hash parts only. -/
structure Run where
  phase : Phase := .waiting
  tempRoots : List Bytes := []
  pending : Option StorePath := none

/-! ### The steps -/

/-- The lock is held by one run, or shared by clients. The temporary roots directory has
the files of some clients. -/
structure State where
  clients : Nat → Client := fun _ => {}
  runs : Nat → Run := fun _ => {}
  exclusive : Option Nat := none
  sharedBy : List Nat := []
  server : Option Nat := none
  tempRootsDir : List Nat := []

def State.setClient (s : State) (c : Nat) (client : Client) : State :=
  { s with clients := fun i => if i = c then client else s.clients i }

def State.setRun (s : State) (k : Nat) (run : Run) : State :=
  { s with runs := fun i => if i = k then run else s.runs i }

inductive ClientEvent
  | addTempRoot (path : StorePath)
  | openFile
  | lockFile
  | tryLock
  | connect
  | send
  | readAck
  | append
  | finish
  | die

inductive RunEvent
  | acquire
  | startServer
  | startScan
  | readFile (client : Nat)
  | finishScan
  | receive (client : Nat)
  | acknowledge (client : Nat)
  | beginDelete (path : StorePath)
  | delete
  | stopServer
  | release

inductive Event
  | client (c : Nat) (e : ClientEvent)
  | run (k : Nat) (e : RunEvent)

def clientStep (s : State) (c : Nat) (client : Client) : ClientEvent → Option State
  | .addTempRoot path =>
      if client.pc = .outside then
        -- `createTempRootsFile` returns if the file is open already.
        match client.fdTempRoots with
        | .owned _ => some (s.setClient c { client with pc := .restart path })
        | _ => some (s.setClient c { client with pc := .creating path })
      else none
  | .openFile =>
      match client.pc, client.fdTempRoots with
      | .creating _, .absent =>
          some { s.setClient c { client with fdTempRoots := .opened } with
            tempRootsDir := c :: s.tempRootsDir }
      | _, _ => none
  | .lockFile =>
      match client.pc, client.fdTempRoots with
      | .creating path, .opened =>
          some (s.setClient c { client with pc := .restart path, fdTempRoots := .owned [] })
      | .creating _, .stale => some (s.setClient c { client with fdTempRoots := .absent })
      | _, _ => none
  | .tryLock =>
      match client.pc with
      | .restart path =>
          if s.exclusive = none then
            some { s.setClient c { client with pc := .locked path } with
              sharedBy := c :: s.sharedBy }
          else some (s.setClient c { client with pc := .connecting path })
      | _ => none
  | .connect =>
      match client.pc, client.fdRootsSocket with
      | .connecting path, none =>
          match s.server with
          | some k => some (s.setClient c { client with fdRootsSocket := some k })
          -- Connection refused.
          | none => some (s.setClient c { client with pc := .restart path })
      | _, _ => none
  | .send =>
      match client.pc, client.fdRootsSocket with
      | .connecting path, some k =>
          some (s.setClient c { client with pc := .waiting path k .sent })
      | _, _ => none
  | .readAck =>
      match client.pc with
      | .waiting path k .acknowledged => some (s.setClient c { client with pc := .acked path k })
      | .waiting path k _ =>
          if (s.runs k).phase.serves then none
          else some (s.setClient c { client with pc := .restart path, fdRootsSocket := none })
      | _ => none
  | .append =>
      match client.pc with
      | .locked path =>
          some (s.setClient c { client with
            pc := .recorded path, fdTempRoots := .owned (client.fdTempRoots.contents ++ [path]) })
      | .acked path _ =>
          some (s.setClient c { client with
            pc := .recorded path, fdTempRoots := .owned (client.fdTempRoots.contents ++ [path]) })
      | _ => none
  | .finish =>
      match client.pc with
      | .recorded path =>
          some { s.setClient c { client with
            pc := .outside, returned := path :: client.returned } with
            sharedBy := s.sharedBy.filter (· ≠ c) }
      | _ => none
  | .die =>
      some { s.setClient c { client with alive := false } with
        sharedBy := s.sharedBy.filter (· ≠ c) }

/-- `findTempRoots` on one file. If the lock can be had, then nobody needs the roots. -/
def readFile (s : State) (k : Nat) (run : Run) (c : Nat) : State :=
  match (s.clients c).fdTempRoots with
  | .opened =>
      { (s.setRun k run).setClient c { s.clients c with fdTempRoots := .stale } with
        tempRootsDir := s.tempRootsDir.filter (· ≠ c) }
  | .owned contents =>
      if (s.clients c).alive then
        s.setRun k { run with tempRoots := contents.map StorePath.hashPart ++ run.tempRoots }
      else
        { (s.setRun k run).setClient c { s.clients c with fdTempRoots := .stale } with
          tempRootsDir := s.tempRootsDir.filter (· ≠ c) }
  | _ => s.setRun k run

/-- What a run does next, with its server. Whatever else keeps a path from being deleted
is left out: here the run may try any path. -/
def runStep (s : State) (k : Nat) (run : Run) : RunEvent → Option State
  | .acquire =>
      if run.phase = .waiting ∧ s.exclusive = none ∧ s.sharedBy = [] then
        some { s.setRun k { run with phase := .locked } with exclusive := some k }
      else none
  | .startServer =>
      if run.phase = .locked then
        some { s.setRun k { run with phase := .serving } with server := some k }
      else none
  | .startScan =>
      if run.phase = .serving then
        some (s.setRun k { run with phase := .scanning s.tempRootsDir })
      else none
  | .readFile c =>
      match run.phase with
      | .scanning remaining =>
          some (readFile s k { run with phase := .scanning (remaining.filter (· ≠ c)) } c)
      | _ => none
  | .finishScan =>
      if run.phase = .scanning [] then some (s.setRun k { run with phase := .deleting })
      else none
  | .receive c =>
      match (s.clients c).pc with
      | .waiting path j .sent =>
          if j = k ∧ run.phase.serves then
            some ((s.setRun k { run with tempRoots := path.hashPart :: run.tempRoots }).setClient c
              { s.clients c with pc := .waiting path j .received })
          else none
      | _ => none
  | .acknowledge c =>
      match (s.clients c).pc with
      | .waiting path j .received =>
          -- The server waits for the end of the deletion of the path.
          if j = k ∧ run.phase.serves ∧ run.pending.map StorePath.hashPart ≠ some path.hashPart then
            some (s.setClient c { s.clients c with pc := .waiting path j .acknowledged })
          else none
      | _ => none
  | .beginDelete path =>
      if run.phase = .deleting ∧ run.pending = none ∧ path.hashPart ∉ run.tempRoots then
        some (s.setRun k { run with pending := some path })
      else none
  | .delete =>
      if run.pending.isSome then some (s.setRun k { run with pending := none }) else none
  | .stopServer =>
      if run.phase.serves ∧ run.pending = none then
        some { s.setRun k { run with phase := .stopped } with server := none }
      else none
  | .release =>
      if run.phase = .stopped then
        some { s.setRun k { run with phase := .finished } with exclusive := none }
      else none

def step (s : State) : Event → Option State
  | .client c e => if (s.clients c).alive then clientStep s c (s.clients c) e else none
  | .run k e => runStep s k (s.runs k) e

def deletes (s : State) : Event → Option StorePath
  | .run k .delete => (s.runs k).pending
  | _ => none

/-! ### The invariant -/

/-- An acknowledgement that a client has, or is going to read. -/
def ClientPc.ack : ClientPc → Option (StorePath × Nat)
  | .waiting path k .acknowledged => some (path, k)
  | .acked path k => some (path, k)
  | _ => none

/-- The client has gone through `createTempRootsFile`. -/
def ClientPc.hasFile : ClientPc → Bool
  | .outside => false
  | .creating _ => false
  | _ => true

def TempRootsFile.listed : TempRootsFile → Bool
  | .opened => true
  | .owned _ => true
  | _ => false

def ClientPc.run : ClientPc → Option Nat
  | .waiting _ k _ => some k
  | .acked _ k => some k
  | _ => none

def Phase.started : Phase → Bool
  | .waiting => false
  | .locked => false
  | _ => true

/-- A run has read the file of a client, or the client had no file when it looked. -/
def Phase.Knows (phase : Phase) (c : Nat) : Prop :=
  match phase with
  | .scanning remaining => c ∉ remaining
  | .deleting => True
  | _ => False

def Run.Keeps (run : Run) (path : StorePath) : Prop :=
  path.hashPart ∈ run.tempRoots ∧ run.pending.map StorePath.hashPart ≠ some path.hashPart

structure ClientOk (s : State) (c : Nat) (client : Client) : Prop where
  locked : ∀ path, client.pc = .locked path → c ∈ s.sharedBy
  listed : client.fdTempRoots.listed = true → c ∈ s.tempRootsDir
  hasFile : client.pc.hasFile = true → ∃ contents, client.fdTempRoots = .owned contents
  connected : ∀ k, client.fdRootsSocket = some k ∨ client.pc.run = some k →
    (s.runs k).phase.started = true
  recorded : ∀ path, client.pc = .recorded path → path ∈ client.fdTempRoots.contents
  returned : ∀ path ∈ client.returned, path ∈ client.fdTempRoots.contents
  received : ∀ path k, client.pc = .waiting path k .received → (s.runs k).phase.serves = true →
    path.hashPart ∈ (s.runs k).tempRoots
  ack : ∀ path k, client.pc.ack = some (path, k) → (s.runs k).phase.serves = true →
    (s.runs k).Keeps path
  ackKnown : ∀ path j k, client.pc.ack = some (path, j) → (s.runs k).phase.Knows c → j = k
  fileKnown : ∀ k, (s.runs k).phase.Knows c → ∀ path ∈ client.fdTempRoots.contents,
    (s.runs k).Keeps path

structure Inv (s : State) : Prop where
  holds : ∀ k, (s.runs k).phase.holdsLock = true → s.exclusive = some k
  shared : s.exclusive ≠ none → s.sharedBy = []
  server : ∀ k, s.server = some k → (s.runs k).phase.started = true
  pending : ∀ k, (s.runs k).phase ≠ .deleting → (s.runs k).pending = none
  clients : ∀ c, (s.clients c).alive = true → ClientOk s c (s.clients c)

/-- No run reads the file of a client that holds an acknowledgement of another run. -/
def ScansRecorded (s : State) : Event → Prop
  | .run k (.readFile c) => ((s.clients c).pc.ack.all fun ack => ack.2 = k) = true
  | _ => True

instance (s : State) (e : Event) : Decidable (ScansRecorded s e) := by
  unfold ScansRecorded
  split <;> infer_instance

@[simp] theorem setClient_clients (s : State) (c i : Nat) (client : Client) :
    (s.setClient c client).clients i = if i = c then client else s.clients i := rfl

@[simp] theorem setClient_runs (s : State) (c : Nat) (client : Client) :
    (s.setClient c client).runs = s.runs := rfl

@[simp] theorem setClient_exclusive (s : State) (c : Nat) (client : Client) :
    (s.setClient c client).exclusive = s.exclusive := rfl

@[simp] theorem setClient_sharedBy (s : State) (c : Nat) (client : Client) :
    (s.setClient c client).sharedBy = s.sharedBy := rfl

@[simp] theorem setClient_server (s : State) (c : Nat) (client : Client) :
    (s.setClient c client).server = s.server := rfl

@[simp] theorem setClient_tempRootsDir (s : State) (c : Nat) (client : Client) :
    (s.setClient c client).tempRootsDir = s.tempRootsDir := rfl

@[simp] theorem setRun_runs (s : State) (k i : Nat) (run : Run) :
    (s.setRun k run).runs i = if i = k then run else s.runs i := rfl

@[simp] theorem setRun_clients (s : State) (k : Nat) (run : Run) :
    (s.setRun k run).clients = s.clients := rfl

@[simp] theorem setRun_exclusive (s : State) (k : Nat) (run : Run) :
    (s.setRun k run).exclusive = s.exclusive := rfl

@[simp] theorem setRun_sharedBy (s : State) (k : Nat) (run : Run) :
    (s.setRun k run).sharedBy = s.sharedBy := rfl

@[simp] theorem setRun_tempRootsDir (s : State) (k : Nat) (run : Run) :
    (s.setRun k run).tempRootsDir = s.tempRootsDir := rfl

theorem Phase.holdsLock_of_serves {phase : Phase} (h : phase.serves = true) :
    phase.holdsLock = true := by
  cases phase <;> simp_all [Phase.serves, Phase.holdsLock]

theorem Phase.serves_of_knows {phase : Phase} {c : Nat} (h : phase.Knows c) :
    phase.serves = true := by
  cases phase <;> simp_all [Phase.serves, Phase.Knows]

theorem Inv.unique {s : State} (h : Inv s) {j k : Nat} (hj : (s.runs j).phase.holdsLock = true)
    (hk : (s.runs k).phase.holdsLock = true) : j = k :=
  Option.some.inj ((h.holds j hj).symm.trans (h.holds k hk))

theorem inv_of_client {s s' : State} {c : Nat} (h : Inv s) (hruns : s'.runs = s.runs)
    (hexclusive : s'.exclusive = s.exclusive) (hserver : s'.server = s.server)
    (hshared : s'.exclusive ≠ none → s'.sharedBy = [])
    (hothers : ∀ i ≠ c, s'.clients i = s.clients i ∧ (i ∈ s.sharedBy → i ∈ s'.sharedBy) ∧
      (i ∈ s.tempRootsDir → i ∈ s'.tempRootsDir))
    (hclient : (s'.clients c).alive = true → ClientOk s' c (s'.clients c)) : Inv s' := by
  refine ⟨?_, hshared, ?_, ?_, ?_⟩
  · rw [hruns, hexclusive]
    exact h.holds
  · rw [hruns, hserver]
    exact h.server
  · rw [hruns]
    exact h.pending
  · intro i hi
    by_cases hic : i = c
    · subst hic
      exact hclient hi
    · obtain ⟨hsame, hsh, hdir⟩ := hothers i hic
      rw [hsame] at hi ⊢
      have hok := h.clients i hi
      refine ⟨fun path hpc => hsh (hok.locked path hpc), fun hl => hdir (hok.listed hl), hok.hasFile,
        ?_, hok.recorded, hok.returned, ?_, ?_, ?_, ?_⟩
      · rw [hruns]
        exact hok.connected
      · rw [hruns]
        exact hok.received
      · rw [hruns]
        exact hok.ack
      · rw [hruns]
        exact hok.ackKnown
      · rw [hruns]
        exact hok.fileKnown

theorem ClientOk.move {s s' : State} {c : Nat} {client : Client} (h : ClientOk s c client)
    (hruns : s'.runs = s.runs) (hdir : s'.tempRootsDir = s.tempRootsDir) (pc : ClientPc)
    (socket : Option Nat) (hlocked : ∀ path, pc = .locked path → c ∈ s'.sharedBy)
    (hfile : pc.hasFile = true → ∃ contents, client.fdTempRoots = .owned contents)
    (hconnected : ∀ k, socket = some k ∨ pc.run = some k → (s.runs k).phase.started = true)
    (hrecorded : ∀ path, pc ≠ .recorded path) (hreceived : ∀ path k, pc ≠ .waiting path k .received)
    (hack : ∀ ack, pc.ack = some ack → client.pc.ack = some ack) :
    ClientOk s' c { client with pc := pc, fdRootsSocket := socket } := by
  refine ⟨hlocked, ?_, hfile, ?_, fun path hp => absurd hp (hrecorded path), h.returned,
    fun path k hp => absurd hp (hreceived path k), ?_, ?_, ?_⟩
  · rw [hdir]
    exact h.listed
  · rw [hruns]
    exact hconnected
  · rw [hruns]
    exact fun path k ha => h.ack path k (hack _ ha)
  · rw [hruns]
    exact fun path j k ha => h.ackKnown path j k (hack _ ha)
  · rw [hruns]
    exact h.fileKnown

theorem inv_of_move {s : State} {c : Nat} (h : Inv s) (halive : (s.clients c).alive = true)
    (pc : ClientPc) (socket : Option Nat) (hlocked : ∀ path, pc ≠ .locked path)
    (hfile : pc.hasFile = true → ∃ contents, (s.clients c).fdTempRoots = .owned contents)
    (hconnected : ∀ k, socket = some k ∨ pc.run = some k → (s.runs k).phase.started = true)
    (hrecorded : ∀ path, pc ≠ .recorded path) (hreceived : ∀ path k, pc ≠ .waiting path k .received)
    (hack : ∀ ack, pc.ack = some ack → (s.clients c).pc.ack = some ack) :
    Inv (s.setClient c { s.clients c with pc := pc, fdRootsSocket := socket }) := by
  refine inv_of_client (c := c) h rfl rfl rfl h.shared (by simp +contextual) fun _ => ?_
  rw [setClient_clients, if_pos rfl]
  exact @ClientOk.move s (s.setClient c _) c _ (h.clients c halive) rfl rfl pc socket
    (fun path hp => absurd hp (hlocked path)) hfile hconnected hrecorded hreceived hack

theorem contents_of_unowned {file : TempRootsFile} (h : ∀ contents, file ≠ .owned contents) :
    file.contents = [] := by
  cases file with
  | owned contents => exact absurd rfl (h contents)
  | absent => rfl
  | opened => rfl
  | stale => rfl

theorem ClientOk.withFile {s s' : State} {c : Nat} {client : Client} (h : ClientOk s c client)
    (hold : ∀ contents, client.fdTempRoots ≠ .owned contents) (file : TempRootsFile)
    (hruns : s'.runs = s.runs) (hshared : s'.sharedBy = s.sharedBy) (hfile : file.contents = [])
    (hlisted : file.listed = true → c ∈ s'.tempRootsDir) :
    ClientOk s' c { client with fdTempRoots := file } := by
  refine ⟨?_, hlisted, ?_, ?_, ?_, ?_, ?_, ?_, ?_, ?_⟩
  · rw [hshared]
    exact h.locked
  · intro hpc
    obtain ⟨contents, howned⟩ := h.hasFile hpc
    exact absurd howned (hold contents)
  · rw [hruns]
    exact h.connected
  · intro path hpc
    rw [hfile, ← contents_of_unowned hold]
    exact h.recorded path hpc
  · intro path hpath
    rw [hfile, ← contents_of_unowned hold]
    exact h.returned path hpath
  · rw [hruns]
    exact h.received
  · rw [hruns]
    exact h.ack
  · rw [hruns]
    exact h.ackKnown
  · rw [hfile]
    intro k _ path hpath
    cases hpath

theorem ClientOk.append {s s' : State} {c : Nat} {client : Client} {path : StorePath}
    (h : ClientOk s c client) (hfile : client.pc.hasFile = true) (hruns : s'.runs = s.runs)
    (hdir : s'.tempRootsDir = s.tempRootsDir)
    (hkeeps : ∀ k, (s.runs k).phase.Knows c → (s.runs k).Keeps path) :
    ClientOk s' c { client with
      pc := .recorded path, fdTempRoots := .owned (client.fdTempRoots.contents ++ [path]) } := by
  obtain ⟨contents, howned⟩ := h.hasFile hfile
  refine ⟨fun _ hp => (by cases hp), fun _ => ?_, fun _ => ⟨_, rfl⟩, ?_, ?_, ?_, fun _ _ hp => (by cases hp),
    fun _ _ ha => (by cases ha), fun _ _ _ ha => (by cases ha), ?_⟩
  · rw [hdir]
    exact h.listed (by rw [howned]; rfl)
  · rw [hruns]
    rintro k (hsocket | ⟨⟨⟩⟩)
    exact h.connected k (.inl hsocket)
  · rintro _ ⟨⟩
    exact List.mem_append_right _ List.mem_cons_self
  · exact fun p hp => List.mem_append_left _ (h.returned p hp)
  · rw [hruns]
    intro k hk p hp
    rcases List.mem_append.mp hp with hp | hp
    · exact h.fileKnown k hk p hp
    · rw [List.mem_singleton.mp hp]
      exact hkeeps k hk

theorem inv_clientStep {s s' : State} {c : Nat} {e : ClientEvent} (h : Inv s)
    (halive : (s.clients c).alive = true) (hstep : clientStep s c (s.clients c) e = some s') :
    Inv s' := by
  have hok := h.clients c halive
  have hsock : ∀ k, (s.clients c).fdRootsSocket = some k → (s.runs k).phase.started = true :=
    fun k hk => hok.connected k (.inl hk)
  cases e with
  | addTempRoot path =>
      rw [clientStep] at hstep
      split at hstep
      next hpc =>
        split at hstep
        next contents hfile =>
          cases hstep
          exact inv_of_move h halive (.restart path) _ (by simp)
            (fun _ => ⟨contents, hfile⟩) (by simpa [ClientPc.run] using hsock) (by simp) (by simp) (by simp [ClientPc.ack])
        next hfile =>
          cases hstep
          exact inv_of_move h halive (.creating path) _ (by simp)
            (by simp [ClientPc.hasFile]) (by simpa [ClientPc.run] using hsock) (by simp) (by simp)
            (by simp [ClientPc.ack])
      next => cases hstep
  | openFile =>
      rw [clientStep] at hstep
      split at hstep
      next path hpc hfile =>
        cases hstep
        refine inv_of_client (c := c) h rfl rfl rfl h.shared (by simp +contextual) fun _ => ?_
        simp only [setClient_clients, if_pos]
        refine hok.withFile ?_ .opened ?_ ?_ rfl fun _ => List.mem_cons_self
        · simp [hfile]
        · rfl
        · rfl
      next => cases hstep
  | lockFile =>
      rw [clientStep] at hstep
      split at hstep
      next path hpc hfile =>
        cases hstep
        refine inv_of_client (c := c) h rfl rfl rfl h.shared (by simp +contextual) fun _ => ?_
        simp only [setClient_clients, if_pos]
        have howned : ClientOk s c { s.clients c with fdTempRoots := .owned [] } :=
          hok.withFile (by simp [hfile]) (.owned []) rfl rfl rfl fun _ =>
            hok.listed (by rw [hfile]; rfl)
        refine howned.move ?_ ?_ (.restart path) _ (by simp) (fun _ => ⟨[], rfl⟩)
          (by simpa [ClientPc.run] using hsock) (by simp) (by simp) (by simp [ClientPc.ack])
        · rfl
        · rfl
      next path hpc hfile =>
        cases hstep
        refine inv_of_client (c := c) h rfl rfl rfl h.shared (by simp +contextual) fun _ => ?_
        simp only [setClient_clients, if_pos]
        refine hok.withFile ?_ .absent ?_ ?_ rfl (by simp [TempRootsFile.listed])
        · simp [hfile]
        · rfl
        · rfl
      next => cases hstep
  | tryLock =>
      rw [clientStep] at hstep
      split at hstep
      next path hpc =>
        have hfile := hok.hasFile (by rw [hpc]; rfl)
        split at hstep
        next hnone =>
          cases hstep
          refine inv_of_client (c := c) h rfl rfl rfl (fun hsome => absurd hnone hsome)
            (by simp +contextual) fun _ => ?_
          show ClientOk _ c ((s.setClient c _).clients c)
          rw [setClient_clients, if_pos rfl]
          exact @ClientOk.move s { s.setClient c _ with sharedBy := c :: s.sharedBy } c _ hok rfl rfl
            (.locked path) _ (fun _ _ => List.mem_cons_self) (fun _ => hfile) (by simpa [ClientPc.run] using hsock) (by simp) (by simp)
            (by simp [ClientPc.ack])
        next =>
          cases hstep
          exact inv_of_move h halive (.connecting path) _ (by simp)
            (fun _ => hfile) (by simpa [ClientPc.run] using hsock) (by simp) (by simp)
            (by simp [ClientPc.ack])
      next => cases hstep
  | connect =>
      rw [clientStep] at hstep
      split at hstep
      next path hpc hsocket =>
        have hfile := hok.hasFile (by rw [hpc]; rfl)
        split at hstep
        next k hserver =>
          cases hstep
          exact inv_of_move h halive (s.clients c).pc _ (by simp [hpc]) (fun _ => hfile)
            (by rintro j (⟨⟨⟩⟩ | hrun)
                · exact h.server _ hserver
                · exact hok.connected j (.inr hrun))
            (by simp [hpc]) (by simp [hpc]) fun _ ha => ha
        next =>
          cases hstep
          exact inv_of_move h halive (.restart path) _ (by simp)
            (fun _ => hfile) (by simpa [ClientPc.run] using hsock) (by simp) (by simp)
            (by simp [ClientPc.ack])
      next => cases hstep
  | send =>
      rw [clientStep] at hstep
      split at hstep
      next path k hpc hsocket =>
        have hfile := hok.hasFile (by rw [hpc]; rfl)
        cases hstep
        exact inv_of_move h halive (.waiting path k .sent) _ (by simp) (fun _ => hfile)
          (by rintro j (hj | ⟨⟨⟩⟩)
              · exact hsock j hj
              · exact hsock k hsocket)
          (by simp) (by simp) (by simp [ClientPc.ack])
      next => cases hstep
  | readAck =>
      rw [clientStep] at hstep
      split at hstep
      next path k hpc =>
        have hfile := hok.hasFile (by rw [hpc]; rfl)
        cases hstep
        exact inv_of_move h halive (.acked path k) _ (by simp) (fun _ => hfile)
          (by rintro j (hj | ⟨⟨⟩⟩)
              · exact hsock j hj
              · exact hok.connected k (.inr (by rw [hpc]; rfl)))
          (by simp) (by simp) (by simp [ClientPc.ack, hpc])
      next path k progress hnot hpc =>
        have hfile := hok.hasFile (by rw [hpc]; rfl)
        split at hstep
        next => cases hstep
        next =>
          cases hstep
          exact inv_of_move h halive (.restart path) none (by simp) (fun _ => hfile)
            (by simp [ClientPc.run]) (by simp) (by simp) (by simp [ClientPc.ack])
      next => cases hstep
  | append =>
      rw [clientStep] at hstep
      split at hstep
      next path hpc =>
        -- No run has the lock that the client shares.
        cases hstep
        refine inv_of_client (c := c) h rfl rfl rfl h.shared (by simp +contextual) fun _ => ?_
        rw [setClient_clients, if_pos rfl]
        refine hok.append (by rw [hpc]; rfl) rfl rfl fun k hk => ?_
        have hshared := hok.locked path hpc
        have hholds := h.holds k (Phase.holdsLock_of_serves (Phase.serves_of_knows hk))
        rw [h.shared (by rw [hholds]; simp)] at hshared
        cases hshared
      next path j hpc =>
        -- The run that has read the file is the one that sent the acknowledgement.
        cases hstep
        refine inv_of_client (c := c) h rfl rfl rfl h.shared (by simp +contextual) fun _ => ?_
        rw [setClient_clients, if_pos rfl]
        refine hok.append (by rw [hpc]; rfl) rfl rfl fun k hk => ?_
        have hack : (s.clients c).pc.ack = some (path, j) := by rw [hpc]; rfl
        obtain rfl := hok.ackKnown path j k hack hk
        exact hok.ack path j hack (Phase.serves_of_knows hk)
      next => cases hstep
  | finish =>
      rw [clientStep] at hstep
      split at hstep
      next path hpc =>
        cases hstep
        refine inv_of_client (c := c) h rfl rfl rfl (fun hsome => by simp [h.shared hsome])
          (by simp +contextual) fun _ => ?_
        simp only [setClient_clients, if_pos]
        have hreturned : ClientOk s c
            { s.clients c with returned := path :: (s.clients c).returned } :=
          ⟨hok.locked, hok.listed, hok.hasFile, hok.connected, hok.recorded,
            List.forall_mem_cons.mpr ⟨hok.recorded path hpc, hok.returned⟩,
            hok.received, hok.ack, hok.ackKnown, hok.fileKnown⟩
        refine hreturned.move ?_ ?_ .outside _ (by simp) (by simp [ClientPc.hasFile])
          (by simpa [ClientPc.run] using hsock) (by simp) (by simp) (by simp [ClientPc.ack])
        · rfl
        · rfl
      next => cases hstep
  | die =>
      cases hstep
      exact inv_of_client (c := c) h rfl rfl rfl (fun hsome => by simp [h.shared hsome])
        (by simp +contextual) fun hdead => by simp at hdead

/-! ### Steps of a run -/

/-- A run changes, and the clients stay. -/
structure RunMoves (s s' : State) (k : Nat) : Prop where
  clients : s'.clients = s.clients
  sharedBy : s'.sharedBy = s.sharedBy
  tempRootsDir : s'.tempRootsDir = s.tempRootsDir
  others : ∀ i ≠ k, s'.runs i = s.runs i
  started : (s.runs k).phase.started = true → (s'.runs k).phase.started = true
  serves : (s'.runs k).phase.serves = true →
    (s.runs k).phase.serves = true ∨ (s.runs k).phase.started = false
  tempRoots : ∀ hash ∈ (s.runs k).tempRoots, hash ∈ (s'.runs k).tempRoots
  keeps : ∀ path, (s.runs k).Keeps path → (s'.runs k).Keeps path

/-- What a run learns of a client when it has read the file. -/
def Learns (k : Nat) (run : Run) (client : Client) : Prop :=
  (∀ path j, client.pc.ack = some (path, j) → j = k) ∧
    ∀ path ∈ client.fdTempRoots.contents, run.Keeps path

theorem run_of_ack {pc : ClientPc} {path : StorePath} {k : Nat} (h : pc.ack = some (path, k)) :
    pc.run = some k := by
  unfold ClientPc.ack at h
  split at h <;> simp_all [ClientPc.run]

theorem hasFile_of_ack {pc : ClientPc} {ack : StorePath × Nat} (h : pc.ack = some ack) :
    pc.hasFile = true := by
  unfold ClientPc.ack at h
  split at h <;> simp_all [ClientPc.hasFile]

theorem ClientOk.run {s s' : State} {c k : Nat} {client : Client} (h : ClientOk s c client)
    (hmoves : RunMoves s s' k)
    (hknows : (s'.runs k).phase.Knows c → (s.runs k).phase.Knows c ∨ Learns k (s'.runs k) client) :
    ClientOk s' c client := by
  have hserves : ∀ j, client.pc.run = some j → (s'.runs j).phase.serves = true →
      (s.runs j).phase.serves = true := by
    intro j hj hserves
    by_cases hjk : j = k
    · subst hjk
      refine (hmoves.serves hserves).resolve_right fun hnot => ?_
      rw [h.connected j (.inr hj)] at hnot
      cases hnot
    · rwa [← hmoves.others j hjk]
  have hkeeps : ∀ j path, (s.runs j).Keeps path → (s'.runs j).Keeps path := by
    intro j path hj
    by_cases hjk : j = k
    · subst hjk
      exact hmoves.keeps path hj
    · rwa [hmoves.others j hjk]
  refine ⟨?_, ?_, h.hasFile, ?_, h.recorded, h.returned, ?_, ?_, ?_, ?_⟩
  · rw [hmoves.sharedBy]
    exact h.locked
  · rw [hmoves.tempRootsDir]
    exact h.listed
  · intro j hj
    have hstarted := h.connected j hj
    by_cases hjk : j = k
    · subst hjk
      exact hmoves.started hstarted
    · rwa [hmoves.others j hjk]
  · intro path j hpc hj
    have hmem := h.received path j hpc (hserves j (by rw [hpc]; rfl) hj)
    by_cases hjk : j = k
    · subst hjk
      exact hmoves.tempRoots _ hmem
    · rwa [hmoves.others j hjk]
  · intro path j hack hj
    exact hkeeps j path (h.ack path j hack (hserves j (run_of_ack hack) hj))
  · intro path j i hack hi
    by_cases hik : i = k
    · subst hik
      rcases hknows hi with hold | hlearns
      · exact h.ackKnown path j i hack hold
      · exact hlearns.1 path j hack
    · rw [hmoves.others i hik] at hi
      exact h.ackKnown path j i hack hi
  · intro i hi path hpath
    by_cases hik : i = k
    · subst hik
      rcases hknows hi with hold | hlearns
      · exact hkeeps i path (h.fileKnown i hold path hpath)
      · exact hlearns.2 path hpath
    · rw [hmoves.others i hik] at hi
      exact hkeeps i path (h.fileKnown i hi path hpath)

theorem inv_of_run {s s' : State} {k : Nat} (h : Inv s) (hmoves : RunMoves s s' k)
    (hholds : ∀ i, (s'.runs i).phase.holdsLock = true → s'.exclusive = some i)
    (hshared : s'.exclusive ≠ none → s'.sharedBy = [])
    (hserver : ∀ i, s'.server = some i → (s'.runs i).phase.started = true)
    (hpending : (s'.runs k).phase ≠ .deleting → (s'.runs k).pending = none)
    (hknows : ∀ c, (s'.runs k).phase.Knows c → (s.runs k).phase.Knows c ∨
      ((s.clients c).alive = true → Learns k (s'.runs k) (s.clients c))) : Inv s' := by
  refine ⟨hholds, hshared, hserver, ?_, ?_⟩
  · intro i
    by_cases hik : i = k
    · subst hik
      exact hpending
    · rw [hmoves.others i hik]
      exact h.pending i
  · intro c hc
    rw [hmoves.clients] at hc ⊢
    exact (h.clients c hc).run hmoves fun hk => (hknows c hk).imp_right fun hl => hl hc

theorem inv_of_phase {s s' : State} {k : Nat} {phase : Phase} (h : Inv s)
    (hclients : s'.clients = s.clients) (hsharedBy : s'.sharedBy = s.sharedBy)
    (hdir : s'.tempRootsDir = s.tempRootsDir) (hexclusive : s'.exclusive = s.exclusive)
    (hruns : s'.runs = (s.setRun k { s.runs k with phase := phase }).runs)
    (hserver : s'.server = s.server ∨ s'.server = none ∨
      (s'.server = some k ∧ phase.started = true))
    (hlock : (s.runs k).phase.holdsLock = true)
    (hstarted : (s.runs k).phase.started = true → phase.started = true)
    (hserves : phase.serves = true →
      (s.runs k).phase.serves = true ∨ (s.runs k).phase.started = false)
    (hpending : (s.runs k).pending = none ∨ phase = .deleting)
    (hknows : ∀ c, phase.Knows c → (s.runs k).phase.Knows c ∨
      ((s.clients c).alive = true → Learns k (s.runs k) (s.clients c))) : Inv s' := by
  have hk : s'.runs k = { s.runs k with phase := phase } := by
    rw [hruns, setRun_runs, if_pos rfl]
  have hi : ∀ i ≠ k, s'.runs i = s.runs i := by
    intro i hi
    rw [hruns, setRun_runs, if_neg hi]
  refine inv_of_run h ⟨hclients, hsharedBy, hdir, hi, ?_, ?_, ?_, ?_⟩ ?_ ?_ ?_ ?_ ?_
  · rw [hk]
    exact hstarted
  · rw [hk]
    exact hserves
  · rw [hk]
    exact fun _ hmem => hmem
  · rw [hk]
    exact fun _ hkeeps => hkeeps
  · intro i hholds
    rw [hexclusive]
    by_cases hik : i = k
    · rw [hik]
      exact h.holds k hlock
    · rw [hi i hik] at hholds
      exact h.holds i hholds
  · rw [hexclusive, hsharedBy]
    exact h.shared
  · intro i hsi
    by_cases hik : i = k
    · subst hik
      rw [hk]
      rcases hserver with hsame | hnone | ⟨-, hphase⟩
      · exact hstarted (h.server i (hsame ▸ hsi))
      · rw [hnone] at hsi
        cases hsi
      · exact hphase
    · rw [hi i hik]
      rcases hserver with hsame | hnone | ⟨hself, -⟩
      · exact h.server i (hsame ▸ hsi)
      · rw [hnone] at hsi
        cases hsi
      · rw [hself] at hsi
        exact absurd (Option.some.inj hsi).symm hik
  · rw [hk]
    exact fun hnot => hpending.resolve_right hnot
  · rw [hk]
    exact hknows

theorem inv_of_roots {s : State} {k : Nat} {run : Run} (h : Inv s)
    (hphase : run.phase = (s.runs k).phase ∨
      ∃ remaining remaining', (s.runs k).phase = .scanning remaining ∧
        run.phase = .scanning remaining')
    (htempRoots : ∀ hash ∈ (s.runs k).tempRoots, hash ∈ run.tempRoots)
    (hkeeps : ∀ path, (s.runs k).Keeps path → run.Keeps path)
    (hpending : run.phase ≠ .deleting → run.pending = none)
    (hknows : ∀ c, run.phase.Knows c → (s.runs k).phase.Knows c ∨
      ((s.clients c).alive = true → Learns k run (s.clients c))) : Inv (s.setRun k run) := by
  have hi : ∀ i ≠ k, (s.setRun k run).runs i = s.runs i := fun i hi => if_neg hi
  have hk : (s.setRun k run).runs k = run := if_pos rfl
  have hsame : run.phase.started = (s.runs k).phase.started ∧
      run.phase.serves = (s.runs k).phase.serves ∧
      run.phase.holdsLock = (s.runs k).phase.holdsLock := by
    rcases hphase with hphase | ⟨remaining, remaining', hold, hnew⟩
    · rw [hphase]
      exact ⟨rfl, rfl, rfl⟩
    · rw [hold, hnew]
      exact ⟨rfl, rfl, rfl⟩
  obtain ⟨hstarted, hserves, hholds⟩ := hsame
  refine inv_of_run h ⟨rfl, rfl, rfl, hi, ?_, ?_, ?_, ?_⟩ ?_ h.shared ?_ ?_ ?_
  · rw [hk, hstarted]
    exact id
  · rw [hk, hserves]
    exact .inl
  · rw [hk]
    exact htempRoots
  · rw [hk]
    exact hkeeps
  · intro i hlock
    by_cases hik : i = k
    · subst hik
      rw [hk, hholds] at hlock
      exact h.holds i hlock
    · rw [hi i hik] at hlock
      exact h.holds i hlock
  · intro i hsi
    have hold := h.server i hsi
    by_cases hik : i = k
    · subst hik
      rw [hk, hstarted]
      exact hold
    · rwa [hi i hik]
  · rw [hk]
    exact hpending
  · rw [hk]
    exact hknows

theorem keeps_of_subset {run run' : Run} {path : StorePath} (h : run.Keeps path)
    (hsub : ∀ hash ∈ run.tempRoots, hash ∈ run'.tempRoots) (hpending : run'.pending = run.pending) :
    run'.Keeps path := by
  refine ⟨hsub _ h.1, ?_⟩
  rw [hpending]
  exact h.2

theorem learns_of_unlisted {s : State} {c k : Nat} {run : Run} (h : ClientOk s c (s.clients c))
    (hfile : ∀ contents, (s.clients c).fdTempRoots ≠ .owned contents) :
    Learns k run (s.clients c) := by
  refine ⟨fun path j hack => ?_, fun path hpath => ?_⟩
  · obtain ⟨contents, howned⟩ := h.hasFile (hasFile_of_ack hack)
    exact absurd howned (hfile contents)
  · rw [contents_of_unowned hfile] at hpath
    cases hpath

theorem inv_readFile {s : State} {k c : Nat} {remaining : List Nat} (h : Inv s)
    (hphase : (s.runs k).phase = .scanning remaining)
    (hok : ((s.clients c).pc.ack.all fun ack => ack.2 = k) = true) :
    Inv (readFile s k { s.runs k with phase := .scanning (remaining.filter (· ≠ c)) } c) := by
  have hnone : (s.runs k).pending = none := h.pending k (by simp [hphase])
  -- The other clients are known as before.
  have hread : ∀ run : Run, run.phase = .scanning (remaining.filter (· ≠ c)) →
      run.pending = none → (∀ hash ∈ (s.runs k).tempRoots, hash ∈ run.tempRoots) →
      ((s.clients c).alive = true → Learns k run (s.clients c)) → Inv (s.setRun k run) := by
    intro run hrun hpending hsub hlearns
    refine inv_of_roots h (.inr ⟨_, _, hphase, hrun⟩) hsub
      (fun path hp => keeps_of_subset hp hsub (hpending.trans hnone.symm)) (fun _ => hpending) ?_
    intro i hi
    by_cases hic : i = c
    · subst hic
      exact .inr hlearns
    · left
      rw [hrun] at hi
      rw [hphase]
      intro hmem
      exact hi (List.mem_filter.mpr ⟨hmem, decide_eq_true hic⟩)
  unfold readFile
  split
  next hfile =>
    have hinv := hread { s.runs k with phase := .scanning (remaining.filter (· ≠ c)) } rfl hnone
      (fun _ hmem => hmem) fun halive =>
        learns_of_unlisted (h.clients c halive) (by simp [hfile])
    refine inv_of_client (c := c) hinv rfl rfl rfl hinv.shared (by simp +contextual) fun halive => ?_
    replace halive : (s.clients c).alive = true := by simpa using halive
    simp only [setClient_clients, if_pos]
    refine (hinv.clients c halive).withFile ?_ .stale ?_ ?_ rfl (by simp [TempRootsFile.listed])
    · simp [hfile]
    · rfl
    · rfl
  next contents hfile =>
    split
    next halive =>
      refine hread _ rfl hnone (fun _ hmem => List.mem_append_right _ hmem) fun _ => ⟨?_, ?_⟩
      · intro path j hack
        rw [hack] at hok
        simpa using hok
      · intro path hpath
        rw [hfile] at hpath
        refine ⟨List.mem_append_left _ (List.mem_map_of_mem hpath), ?_⟩
        rw [show (s.runs k).pending = none from hnone]
        simp
    next hdead =>
      have hinv := hread { s.runs k with phase := .scanning (remaining.filter (· ≠ c)) } rfl hnone
        (fun _ hmem => hmem) fun halive => absurd halive hdead
      refine inv_of_client (c := c) hinv rfl rfl rfl hinv.shared (by simp +contextual) fun halive => ?_
      exact absurd (by simpa using halive) hdead
  next hne hnotowned =>
    refine hread _ rfl hnone (fun _ hmem => hmem) fun halive => ?_
    exact learns_of_unlisted (h.clients c halive) hnotowned

theorem inv_runStep {s s' : State} {k : Nat} {e : RunEvent} (h : Inv s)
    (hok : ScansRecorded s (.run k e)) (hstep : runStep s k (s.runs k) e = some s') : Inv s' := by
  cases e with
  | acquire =>
      rw [runStep] at hstep
      split at hstep
      next hfree =>
        obtain ⟨hphase, hnone, hshared⟩ := hfree
        cases hstep
        have hi : ∀ i ≠ k, (s.setRun k { s.runs k with phase := .locked }).runs i = s.runs i :=
          fun i hi => if_neg hi
        refine inv_of_run (k := k) h ⟨rfl, rfl, rfl, hi, ?_, ?_, ?_, ?_⟩ ?_ (fun _ => hshared) ?_ ?_ ?_
        · simp [hphase, Phase.started]
        · simp [Phase.serves]
        · simp
        · intro path hp
          simpa [Run.Keeps] using hp
        · intro i hlock
          by_cases hik : i = k
          · rw [hik]
          · simp only [setRun_runs, if_neg hik] at hlock
            rw [h.holds i hlock] at hnone
            cases hnone
        · intro i hsi
          have hold := h.server i hsi
          by_cases hik : i = k
          · subst hik
            simp [hphase, Phase.started] at hold
          · simpa [hik] using hold
        · intro _
          simpa using h.pending k (by simp [hphase])
        · intro c hc
          simp [Phase.Knows] at hc
      next => cases hstep
  | startServer =>
      rw [runStep] at hstep
      split at hstep
      next hphase =>
        cases hstep
        exact inv_of_phase h rfl rfl rfl rfl rfl (.inr (.inr ⟨rfl, rfl⟩)) (by rw [hphase]; rfl)
          (fun _ => rfl) (fun _ => .inr (by rw [hphase]; rfl)) (.inl (h.pending k (by simp [hphase])))
          fun c hc => hc.elim
      next => cases hstep
  | startScan =>
      rw [runStep] at hstep
      split at hstep
      next hphase =>
        cases hstep
        refine inv_of_phase h rfl rfl rfl rfl rfl (.inl rfl) (by rw [hphase]; rfl) (fun _ => rfl)
          (fun _ => .inl (by rw [hphase]; rfl)) (.inl (h.pending k (by simp [hphase])))
          fun c hc => .inr fun halive => learns_of_unlisted (h.clients c halive) ?_
        intro contents hfile
        exact hc ((h.clients c halive).listed (by rw [hfile]; rfl))
      next => cases hstep
  | readFile c =>
      rw [runStep] at hstep
      split at hstep
      next remaining hphase =>
        cases hstep
        exact inv_readFile h hphase hok
      next => cases hstep
  | finishScan =>
      rw [runStep] at hstep
      split at hstep
      next hphase =>
        cases hstep
        exact inv_of_phase h rfl rfl rfl rfl rfl (.inl rfl) (by rw [hphase]; rfl) (fun _ => rfl)
          (fun _ => .inl (by rw [hphase]; rfl)) (.inr rfl)
          fun c _ => .inl (by rw [hphase]; exact List.not_mem_nil)
      next => cases hstep
  | receive c =>
      rw [runStep] at hstep
      split at hstep
      next path j hpc =>
        split at hstep
        next hserves =>
          obtain ⟨rfl, hserves⟩ := hserves
          cases hstep
          have hinv : Inv (s.setRun j { s.runs j with
              tempRoots := path.hashPart :: (s.runs j).tempRoots }) :=
            inv_of_roots h (.inl rfl) (fun _ hmem => List.mem_cons_of_mem _ hmem)
              (fun p hp => keeps_of_subset hp (fun _ hmem => List.mem_cons_of_mem _ hmem) rfl)
              (h.pending j) fun c hc => .inl hc
          refine inv_of_client (c := c) hinv rfl rfl rfl hinv.shared (by simp +contextual)
            fun halive => ?_
          replace halive : (s.clients c).alive = true := by simpa using halive
          have hclient := hinv.clients c halive
          have hfile := hclient.hasFile (by rw [setRun_clients, hpc]; rfl)
          have hrun := hclient.connected j (.inr (by rw [setRun_clients, hpc]; rfl))
          simp only [setClient_clients, if_pos]
          refine ⟨by simp, hclient.listed, fun _ => hfile, ?_, by simp, hclient.returned, ?_,
            by simp [ClientPc.ack], by simp [ClientPc.ack], hclient.fileKnown⟩
          · rintro i (hsocket | ⟨⟨⟩⟩)
            · exact hclient.connected i (.inl hsocket)
            · exact hrun
          · rintro _ _ ⟨⟩ _
            simp
        next => cases hstep
      next => cases hstep
  | acknowledge c =>
      rw [runStep] at hstep
      split at hstep
      next path j hpc =>
        split at hstep
        next hserves =>
          obtain ⟨rfl, hserves, hpending⟩ := hserves
          cases hstep
          refine inv_of_client (c := c) h rfl rfl rfl h.shared (by simp +contextual) fun halive => ?_
          replace halive : (s.clients c).alive = true := by simpa using halive
          have hclient := h.clients c halive
          have hfile := hclient.hasFile (by rw [hpc]; rfl)
          have hrun := hclient.connected j (.inr (by rw [hpc]; rfl))
          simp only [setClient_clients, if_pos]
          refine ⟨by simp, hclient.listed, fun _ => hfile, ?_, by simp, hclient.returned, by simp,
            ?_, ?_, hclient.fileKnown⟩
          · rintro i (hsocket | ⟨⟨⟩⟩)
            · exact hclient.connected i (.inl hsocket)
            · exact hrun
          · rintro _ _ ⟨⟩ _
            exact ⟨hclient.received path j hpc hserves, hpending⟩
          · rintro _ _ i ⟨⟩ hi
            exact h.unique (Phase.holdsLock_of_serves hserves)
              (Phase.holdsLock_of_serves (Phase.serves_of_knows hi))
        next => cases hstep
      next => cases hstep
  | beginDelete path =>
      rw [runStep] at hstep
      split at hstep
      next hpath =>
        obtain ⟨hphase, hnone, hnotroot⟩ := hpath
        cases hstep
        refine inv_of_roots h (.inl rfl) (fun _ hmem => hmem) ?_ (fun hnot => absurd hphase hnot)
          fun c hc => .inl hc
        rintro p ⟨hp, -⟩
        refine ⟨hp, fun heq => hnotroot ?_⟩
        rw [Option.some.inj heq]
        exact hp
      next => cases hstep
  | delete =>
      rw [runStep] at hstep
      split at hstep
      next =>
        cases hstep
        exact inv_of_roots h (.inl rfl) (fun _ hmem => hmem) (fun p hp => ⟨hp.1, by simp⟩)
          (fun _ => rfl) fun c hc => .inl hc
      next => cases hstep
  | stopServer =>
      rw [runStep] at hstep
      split at hstep
      next hstop =>
        obtain ⟨hserves, hnone⟩ := hstop
        cases hstep
        exact inv_of_phase h rfl rfl rfl rfl rfl (.inr (.inl rfl)) (Phase.holdsLock_of_serves hserves)
          (fun _ => rfl) (by simp [Phase.serves]) (.inl hnone) fun c hc => hc.elim
      next => cases hstep
  | release =>
      rw [runStep] at hstep
      split at hstep
      next hphase =>
        cases hstep
        have hi : ∀ i ≠ k, (s.setRun k { s.runs k with phase := .finished }).runs i = s.runs i :=
          fun i hi => if_neg hi
        have hk := h.holds k (by rw [hphase]; rfl)
        refine inv_of_run (k := k) h ⟨rfl, rfl, rfl, hi, ?_, ?_, ?_, ?_⟩ ?_ (by simp) ?_ ?_ ?_
        · simp [Phase.started]
        · simp [Phase.serves]
        · simp
        · intro path hp
          simpa [Run.Keeps] using hp
        · intro i hlock
          by_cases hik : i = k
          · rw [hik] at hlock
            simp [Phase.holdsLock] at hlock
          · simp only [setRun_runs, if_neg hik] at hlock
            exact absurd (Option.some.inj ((h.holds i hlock).symm.trans hk)) hik
        · intro i hsi
          have hold := h.server i hsi
          by_cases hik : i = k
          · subst hik
            simp [Phase.started]
          · simpa [hik] using hold
        · intro _
          simpa using h.pending k (by simp [hphase])
        · intro c hc
          simp [Phase.Knows] at hc
      next => cases hstep

theorem inv_step (s : State) (e : Event) (s' : State) (h : Inv s) (hok : ScansRecorded s e)
    (hstep : step s e = some s') : Inv s' := by
  cases e with
  | client c e =>
      rw [step] at hstep
      split at hstep
      next halive => exact inv_clientStep h halive hstep
      next => cases hstep
  | run k e => exact inv_runStep h hok hstep

theorem inv_init : Inv {} := by
  refine ⟨by simp [Phase.holdsLock], by simp, by simp, by simp, fun c _ => ?_⟩
  constructor <;> simp [ClientPc.ack, ClientPc.run, ClientPc.hasFile, TempRootsFile.listed, Phase.Knows]

/-- If no run reads a temporary roots file that lacks a root which another run has
acknowledged, then no run deletes what a living client has added. -/
theorem deletes_not_returned {s : State} (hs : Reaches step ScansRecorded {} s) {e : Event}
    {path : StorePath} (hdelete : deletes s e = some path) {c : Nat}
    (halive : (s.clients c).alive = true) : path ∉ (s.clients c).returned := by
  intro hreturned
  have h := hs.invariant inv_init inv_step
  unfold deletes at hdelete
  split at hdelete
  next k =>
    have hphase : (s.runs k).phase = .deleting := by
      by_contra hnot
      rw [h.pending k hnot] at hdelete
      cases hdelete
    have hok := h.clients c halive
    have hkeeps := hok.fileKnown k (by rw [hphase]; trivial) path (hok.returned path hreturned)
    rw [Run.Keeps, hdelete] at hkeeps
    exact hkeeps.2 rfl
  next => cases hdelete

/-! ### Runs with one client -/

def rootPath : StorePath := ⟨List.replicate 32 97 ++ str "-root", by decide⟩

def garbagePath : StorePath := ⟨List.replicate 32 98 ++ str "-garbage", by decide⟩

/-- A client adds a root when no run is going on. -/
def addUnderLock : List Event :=
  [.addTempRoot rootPath, .openFile, .lockFile, .tryLock, .append, .finish].map (.client 0)

def collect (k : Nat) (path : StorePath) : List Event :=
  [.acquire, .startServer, .startScan, .readFile 0, .finishScan, .beginDelete path].map (.run k)

theorem deletes_not_returned_sample :
    ∃ s, exec step ScansRecorded {} (addUnderLock ++ collect 0 garbagePath) = some s ∧
      deletes s (.run 0 .delete) = some garbagePath ∧ garbagePath ∉ (s.clients 0).returned := by
  have hrun : (exec step ScansRecorded {} (addUnderLock ++ collect 0 garbagePath)).map
      (fun s => (deletes s (.run 0 .delete), (s.clients 0).alive)) =
        some (some garbagePath, true) := by decide
  obtain ⟨s, hs, hfacts⟩ := Option.map_eq_some_iff.mp hrun
  have hdelete : deletes s (.run 0 .delete) = some garbagePath := congrArg Prod.fst hfacts
  exact ⟨s, hs, hdelete, deletes_not_returned (Reaches.start.exec hs) hdelete
    (congrArg Prod.snd hfacts)⟩

/-- A client gets an acknowledgement, and records the root after the next run has read
its file. -/
def addBetweenRuns : List Event := List.flatten [
  [.addTempRoot rootPath, .openFile, .lockFile].map (.client 0),
  [.acquire, .startServer].map (.run 0),
  [.tryLock, .connect, .send].map (.client 0),
  [.receive 0, .acknowledge 0].map (.run 0),
  [.client 0 .readAck],
  [.startScan, .readFile 0, .finishScan, .stopServer, .release].map (.run 0),
  [.acquire, .startServer, .startScan, .readFile 0, .finishScan].map (.run 1),
  [.append, .finish].map (.client 0),
  [.run 1 (.beginDelete rootPath)]]

theorem not_deletes_not_returned :
    ¬ ∀ s, Reaches step (fun _ _ => True) {} s → ∀ e path, deletes s e = some path →
      ∀ c, (s.clients c).alive = true → path ∉ (s.clients c).returned := by
  intro h
  have hrun : (exec step (fun _ _ => True) {} addBetweenRuns).map
      (fun s => (deletes s (.run 1 .delete), (s.clients 0).alive, (s.clients 0).returned)) =
        some (some rootPath, true, [rootPath]) := by decide
  obtain ⟨s, hs, hfacts⟩ := Option.map_eq_some_iff.mp hrun
  have hdelete : deletes s (.run 1 .delete) = some rootPath := congrArg Prod.fst hfacts
  have hclient := congrArg Prod.snd hfacts
  have hreturned : (s.clients 0).returned = [rootPath] := congrArg Prod.snd hclient
  refine h s (Reaches.start.exec hs) _ _ hdelete 0 (congrArg Prod.fst hclient) ?_
  rw [hreturned]
  exact List.mem_cons_self

end Nix.Store.TempRoots
