import LowLevelCpp.Foundations.Ledger

/-!
`rocker`: a parent clones a child into new namespaces, writes its limits and waits for it, while the
child sets itself up and becomes the command. Any call to the kernel may fail, and the steps of the
two processes interleave. What the command itself does is not modelled.

Of the kernel the model has what `REASONING.md` and the comments in `main` rely on: a namespace that
`clone` makes starts as a copy of the parent's and inherits the shared state of its mounts; a mount
in a shared namespace propagates to the host and back; after `MS_REC | MS_PRIVATE` nothing
propagates; and a `/proc` shows the processes of the one that mounts it.
-/
namespace Rocker
open Foundations Foundations.System

/-- The namespaces that the parent lives in, and those that `clone` makes. -/
inductive Ns where
  | host
  | container
  deriving DecidableEq

/-- A mount point; a `/proc` there shows the processes of the namespace `pid`. -/
structure Mount where
  target : String
  pid : Ns
  deriving DecidableEq

/-- Host names and mounts by namespace. A mount in one whose root mount is shared propagates to the
others. There are only two, and the program changes the propagation of all mounts at once, so that
one flag for each says what its mounts' peer groups would. -/
structure Kernel where
  hostname : Ns → String
  mounts : Ns → List Mount
  shared : Ns → Bool

/-- The flags of `clone`, other than `SIGCHLD`. -/
structure Flags where
  newuts : Bool
  newpid : Bool
  newns : Bool

structure Process where
  uts : Ns
  pid : Ns
  mnt : Ns
  root : String
  cwd : String
  deriving DecidableEq

namespace Kernel

/-- The namespaces in which a mount in `ns` shows. -/
def Sees (k : Kernel) (ns m : Ns) : Prop := m = ns ∨ k.shared ns = true ∧ k.shared m = true

instance (k : Kernel) (ns m : Ns) : Decidable (k.Sees ns m) := inferInstanceAs (Decidable (_ ∨ _))

/-- `mount(NULL, "/", NULL, MS_REC | MS_PRIVATE, NULL)` -/
def makePrivate (k : Kernel) (ns : Ns) : Kernel :=
  { k with shared := Function.update k.shared ns false }

def mount (k : Kernel) (ns : Ns) (new : Mount) : Kernel :=
  { k with mounts := fun m => if k.Sees ns m then new :: k.mounts m else k.mounts m }

/-- The mount that goes is the last one at its target. -/
def umount (k : Kernel) (ns : Ns) (target : String) : Kernel :=
  { k with mounts := fun m =>
      if k.Sees ns m then (k.mounts m).eraseP fun old => old.target = target else k.mounts m }

def sethostname (k : Kernel) (ns : Ns) (name : String) : Kernel :=
  { k with hostname := Function.update k.hostname ns name }

/-- The new namespaces start as copies. -/
def clone (k : Kernel) (flags : Flags) (parent : Process) : Kernel × Process :=
  ({ hostname := if flags.newuts then Function.update k.hostname .container (k.hostname parent.uts)
        else k.hostname
     mounts := if flags.newns then Function.update k.mounts .container (k.mounts parent.mnt)
        else k.mounts
     shared := if flags.newns then Function.update k.shared .container (k.shared parent.mnt)
        else k.shared },
   { parent with
     uts := if flags.newuts then .container else parent.uts
     pid := if flags.newpid then .container else parent.pid
     mnt := if flags.newns then .container else parent.mnt })

end Kernel

/-- A path seen by a process; its root is a prefix of the paths of the host. -/
def Process.resolve (p : Process) (path : String) : String := p.root ++ p.cwd ++ path

def hostName : String := "Knocker-Host"

def rootfs : String := "/home/abby/ubuntu_fs"

/-- Where `runtime` stands: before each of its calls, running as the command, or ended. -/
inductive ChildPhase where
  | mountPrivate
  | sethostname
  | chroot
  | chdir
  | mountProc
  | execvp
  | umount
  | command
  | exited (status : ℕ)
  deriving DecidableEq

/-- Where `main` stands; the four phases after `clone` are those of `rule_set`. -/
inductive ParentPhase where
  | arguments
  | malloc
  | clone
  | directory
  | procs
  | pids_max
  | mem_max
  | waitpid
  | free
  | done (status : ℕ)
  deriving DecidableEq

/-- The files of the control group. -/
structure Cgroup where
  procs : List ℕ
  pids_max : String
  mem_max : String

structure Child where
  process : Process
  phase : ChildPhase

def ChildPhase.ended : ChildPhase → Bool
  | .exited _ => true
  | _ => false

structure State where
  kernel : Kernel
  cgroup : Cgroup
  parent : ParentPhase
  child : Option Child

inductive Event where
  | malloc
  | free
  | execvp (file : Option String) (argv : List (Option String))
  | printed (line : String)
  deriving DecidableEq

/-- The stack for the child is the only block that `main` allocates. -/
def Event.stackMove : Event → Move Unit
  | .malloc => .acquire ()
  | .free => .release ()
  | .execvp _ _ | .printed _ => .other

/-- What the program is run on; `pid` is what `clone` returns to the parent. -/
structure Config where
  argv : List String
  kernel : Kernel
  cgroup : Cgroup
  cwd : String
  pid : ℕ

/-- `run_arg`: the arguments behind the program's name and a null pointer. -/
def Config.run_arg (cfg : Config) : List (Option String) := (cfg.argv.drop 1).map some ++ [none]

/-- `CLONE_NEWUTS | CLONE_NEWPID | CLONE_NEWNS` -/
def flags : Flags := ⟨true, true, true⟩

/-- One call of `runtime`, which returns at the first that fails. -/
def runtime (cfg : Config) (k : Kernel) (c : Child) (ok : Bool) : Kernel × Child × List Event :=
  let p := c.process
  match c.phase with
  | .mountPrivate =>
    if ok then (k.makePrivate p.mnt, ⟨p, .sethostname⟩, []) else (k, ⟨p, .exited 1⟩, [])
  | .sethostname =>
    if ok then (k.sethostname p.uts hostName, ⟨p, .chroot⟩, []) else (k, ⟨p, .exited 1⟩, [])
  | .chroot =>
    if ok then (k, ⟨{ p with root := rootfs }, .chdir⟩, []) else (k, ⟨p, .exited 1⟩, [])
  | .chdir =>
    if ok then (k, ⟨{ p with cwd := "/" }, .mountProc⟩, []) else (k, ⟨p, .exited 1⟩, [])
  | .mountProc =>
    if ok then (k.mount p.mnt ⟨p.resolve "proc", p.pid⟩, ⟨p, .execvp⟩, [])
    else (k, ⟨p, .exited 1⟩, [])
  | .execvp =>
    if ok then (k, ⟨p, .command⟩, [.execvp cfg.run_arg.head?.join cfg.run_arg])
    else (k, ⟨p, .umount⟩, [])
  | .umount =>
    (if ok then k.umount p.mnt (p.resolve "proc") else k, ⟨p, .exited 1⟩, [])
  | .command => (k, ⟨p, .exited (if ok then 0 else 1)⟩, [])
  | .exited status => (k, ⟨p, .exited status⟩, [])

/-- One call of `main` or of `rule_set`, which goes on when a file cannot be opened but not when
there is no directory; `waitpid` returns without an error when the child has ended. -/
def main (cfg : Config) (s : State) (ok : Bool) : Option (State × List Event) :=
  match s.parent with
  | .arguments =>
    if cfg.argv.length < 2 then some ({ s with parent := .done 1 }, [])
    else some ({ s with parent := .malloc }, [])
  | .malloc =>
    if ok then some ({ s with parent := .clone }, [.malloc])
    else some ({ s with parent := .done 1 }, [])
  | .clone =>
    if ok then
      let (kernel, process) := s.kernel.clone flags ⟨.host, .host, .host, "", cfg.cwd⟩
      some ({ s with kernel, child := some ⟨process, .mountPrivate⟩, parent := .directory }, [])
    else some ({ s with parent := .done 1 }, [.free])
  | .directory => some ({ s with parent := if ok then .procs else .waitpid }, [])
  | .procs =>
    let procs := if ok then s.cgroup.procs ++ [cfg.pid] else s.cgroup.procs
    some ({ s with cgroup := { s.cgroup with procs }, parent := .pids_max }, [])
  | .pids_max =>
    let pids_max := if ok then "20" else s.cgroup.pids_max
    some ({ s with cgroup := { s.cgroup with pids_max }, parent := .mem_max }, [])
  | .mem_max =>
    let mem_max := if ok then "200M" else s.cgroup.mem_max
    some ({ s with cgroup := { s.cgroup with mem_max }, parent := .waitpid }, [])
  | .waitpid =>
    if ok && !s.child.any (·.phase.ended) then none else some ({ s with parent := .free }, [])
  | .free =>
    some ({ s with parent := .done 0 }, [.free, .printed "Container finished and cleaned up."])
  | .done _ => none

/-- Which process takes a step, and whether its call succeeds. -/
inductive Act where
  | parent (ok : Bool)
  | child (ok : Bool)

def step (cfg : Config) (s : State) : Act → Option (State × List Event)
  | .parent ok => main cfg s ok
  | .child ok =>
    match s.child with
    | none => none
    | some c =>
      if c.phase.ended then none
      else
        let (kernel, c, evs) := runtime cfg s.kernel c ok
        some ({ s with kernel, child := some c }, evs)

def system (cfg : Config) : System State Act Event where
  init := ⟨cfg.kernel, cfg.cgroup, .arguments, none⟩
  step := step cfg

/-- The calls that a child has made, all of which have succeeded. -/
def ChildPhase.passed : ChildPhase → ℕ
  | .mountPrivate => 0
  | .sethostname => 1
  | .chroot => 2
  | .chdir => 3
  | .mountProc => 4
  | .execvp | .umount | .command => 5
  | .exited _ => 0

/-- Where the container has its own `/proc`, as the host sees it. -/
def procPath : String := rootfs ++ "/" ++ "proc"

/-- How far the child has come. -/
structure Progress (k : Kernel) (c : Child) : Prop where
  uts : c.process.uts = .container
  pid : c.process.pid = .container
  mnt : c.process.mnt = .container
  unshared : 1 ≤ c.phase.passed → k.shared .container = false
  named : 2 ≤ c.phase.passed → k.hostname .container = hostName
  rooted : 3 ≤ c.phase.passed → c.process.root = rootfs
  moved : 4 ≤ c.phase.passed → c.process.cwd = "/"
  mounted : 5 ≤ c.phase.passed → ⟨procPath, .container⟩ ∈ k.mounts .container

/-- What the command finds: names, mounts and a root of its own, and a `/proc` with the processes of
the container. -/
structure Confined (k : Kernel) (p : Process) : Prop where
  uts : p.uts = .container
  pid : p.pid = .container
  mnt : p.mnt = .container
  unshared : k.shared .container = false
  named : k.hostname .container = hostName
  root : p.root = rootfs
  cwd : p.cwd = "/"
  proc : ⟨procPath, .container⟩ ∈ k.mounts .container

/-- The host as the program found it. -/
structure Untouched (cfg : Config) (k : Kernel) : Prop where
  hostname : k.hostname .host = cfg.kernel.hostname .host
  mounts : k.mounts .host = cfg.kernel.mounts .host

section Child
variable {cfg : Config} {k k' : Kernel} {c c' : Child} {ok : Bool} {evs : List Event}

theorem Progress.confined (h : Progress k c) (hpassed : 5 ≤ c.phase.passed) :
    Confined k c.process :=
  ⟨h.uts, h.pid, h.mnt, h.unshared (by omega), h.named (by omega), h.rooted (by omega),
    h.moved (by omega), h.mounted hpassed⟩

theorem Progress.resolve (h : Progress k c) (hpassed : 4 ≤ c.phase.passed) :
    c.process.resolve "proc" = procPath := by
  rw [Process.resolve, h.rooted (by omega), h.moved hpassed, procPath]

/-- A container that does not share its mounts is not seen from the host. -/
theorem not_sees_host (h : k.shared .container = false) : ¬ k.Sees .container .host := by
  simp [Kernel.Sees, h]

/-- What a call of `runtime` can be, when the child has come as far as it stands. -/
inductive Calls (cfg : Config) (k : Kernel) (c : Child) : Kernel → Child → List Event → Prop
  | fail : c.phase ≠ .command → Calls cfg k c k ⟨c.process, .exited 1⟩ []
  | mountPrivate : c.phase = .mountPrivate →
      Calls cfg k c (k.makePrivate .container) ⟨c.process, .sethostname⟩ []
  | sethostname : c.phase = .sethostname →
      Calls cfg k c (k.sethostname .container hostName) ⟨c.process, .chroot⟩ []
  | chroot : c.phase = .chroot →
      Calls cfg k c k ⟨{ c.process with root := rootfs }, .chdir⟩ []
  | chdir : c.phase = .chdir → Calls cfg k c k ⟨{ c.process with cwd := "/" }, .mountProc⟩ []
  | mountProc : c.phase = .mountProc →
      Calls cfg k c (k.mount .container ⟨procPath, .container⟩) ⟨c.process, .execvp⟩ []
  | execvp : c.phase = .execvp →
      Calls cfg k c k ⟨c.process, .command⟩ [.execvp cfg.run_arg.head?.join cfg.run_arg]
  | giveUp : c.phase = .execvp → Calls cfg k c k ⟨c.process, .umount⟩ []
  | umount : c.phase = .umount →
      Calls cfg k c (k.umount .container procPath) ⟨c.process, .exited 1⟩ []
  | ends {status : ℕ} : c.phase = .command → Calls cfg k c k ⟨c.process, .exited status⟩ []

theorem runtime_calls (h : Progress k c) (hrunning : c.phase.ended = false)
    (hr : runtime cfg k c ok = (k', c', evs)) : Calls cfg k c k' c' evs := by
  obtain ⟨p, phase⟩ := c
  have huts : p.uts = .container := h.uts
  have hpid : p.pid = .container := h.pid
  have hmnt : p.mnt = .container := h.mnt
  cases phase with
  | mountPrivate =>
    cases ok <;> obtain ⟨rfl, rfl, rfl⟩ : _ ∧ _ ∧ _ := by simpa [runtime, hmnt] using hr
    · exact .fail (by simp)
    · exact .mountPrivate rfl
  | sethostname =>
    cases ok <;> obtain ⟨rfl, rfl, rfl⟩ : _ ∧ _ ∧ _ := by simpa [runtime, huts] using hr
    · exact .fail (by simp)
    · exact .sethostname rfl
  | chroot =>
    cases ok <;> obtain ⟨rfl, rfl, rfl⟩ : _ ∧ _ ∧ _ := by simpa [runtime] using hr
    · exact .fail (by simp)
    · exact .chroot rfl
  | chdir =>
    cases ok <;> obtain ⟨rfl, rfl, rfl⟩ : _ ∧ _ ∧ _ := by simpa [runtime] using hr
    · exact .fail (by simp)
    · exact .chdir rfl
  | mountProc =>
    have hpath : p.resolve "proc" = procPath := h.resolve (by simp [ChildPhase.passed])
    cases ok <;>
      obtain ⟨rfl, rfl, rfl⟩ : _ ∧ _ ∧ _ := by simpa [runtime, hpid, hmnt, hpath] using hr
    · exact .fail (by simp)
    · exact .mountProc rfl
  | execvp =>
    cases ok <;> obtain ⟨rfl, rfl, rfl⟩ : _ ∧ _ ∧ _ := by simpa [runtime] using hr
    · exact .giveUp rfl
    · exact .execvp rfl
  | umount =>
    have hpath : p.resolve "proc" = procPath := h.resolve (by simp [ChildPhase.passed])
    cases ok <;> obtain ⟨rfl, rfl, rfl⟩ : _ ∧ _ ∧ _ := by simpa [runtime, hmnt, hpath] using hr
    · exact .fail (by simp)
    · exact .umount rfl
  | command =>
    cases ok <;> obtain ⟨rfl, rfl, rfl⟩ : _ ∧ _ ∧ _ := by simpa [runtime] using hr
    · exact .ends rfl
    · exact .ends rfl
  | exited status => simp [ChildPhase.ended] at hrunning

/-- Each call that succeeds brings the child one step further. -/
theorem Calls.progress (h : Progress k c) (hc : Calls cfg k c k' c' evs) : Progress k' c' := by
  obtain ⟨huts, hpid, hmnt, hunshared, hnamed, hrooted, hmoved, hmounted⟩ := h
  cases hc with
  | fail _ | ends _ | umount _ =>
    exact ⟨huts, hpid, hmnt, by simp [ChildPhase.passed], by simp [ChildPhase.passed],
      by simp [ChildPhase.passed], by simp [ChildPhase.passed], by simp [ChildPhase.passed]⟩
  | mountPrivate hphase =>
    exact ⟨huts, hpid, hmnt, by simp [Kernel.makePrivate], by simp [ChildPhase.passed],
      by simp [ChildPhase.passed], by simp [ChildPhase.passed], by simp [ChildPhase.passed]⟩
  | sethostname hphase =>
    rw [hphase] at hunshared
    exact ⟨huts, hpid, hmnt, fun _ => hunshared (by decide), by simp [Kernel.sethostname],
      by simp [ChildPhase.passed], by simp [ChildPhase.passed], by simp [ChildPhase.passed]⟩
  | chroot hphase =>
    rw [hphase] at hunshared hnamed
    exact ⟨huts, hpid, hmnt, fun _ => hunshared (by decide), fun _ => hnamed (by decide),
      fun _ => rfl, by simp [ChildPhase.passed], by simp [ChildPhase.passed]⟩
  | chdir hphase =>
    rw [hphase] at hunshared hnamed hrooted
    exact ⟨huts, hpid, hmnt, fun _ => hunshared (by decide), fun _ => hnamed (by decide),
      fun _ => hrooted (by decide), fun _ => rfl, by simp [ChildPhase.passed]⟩
  | mountProc hphase =>
    rw [hphase] at hunshared hnamed hrooted hmoved
    refine ⟨huts, hpid, hmnt, fun _ => hunshared (by decide), fun _ => hnamed (by decide),
      fun _ => hrooted (by decide), fun _ => hmoved (by decide), fun _ => ?_⟩
    simp [Kernel.mount, Kernel.Sees]
  | execvp hphase | giveUp hphase =>
    rw [hphase] at hunshared hnamed hrooted hmoved hmounted
    exact ⟨huts, hpid, hmnt, hunshared, hnamed, hrooted, hmoved, hmounted⟩

/-- The host is out of sight as soon as the mounts are private, and nothing is mounted before. -/
theorem Calls.untouched (hp : Progress k c) (h : Untouched cfg k)
    (hc : Calls cfg k c k' c' evs) : Untouched cfg k' := by
  cases hc with
  | fail _ | ends _ | chroot _ | chdir _ | execvp _ | giveUp _ => exact h
  | mountPrivate _ => exact ⟨h.hostname, h.mounts⟩
  | sethostname _ =>
    refine ⟨?_, h.mounts⟩
    simpa [Kernel.sethostname] using h.hostname
  | mountProc hphase =>
    have hsees := not_sees_host (hp.unshared (by rw [hphase]; decide))
    refine ⟨h.hostname, ?_⟩
    simpa [Kernel.mount, hsees] using h.mounts
  | umount hphase =>
    have hsees := not_sees_host (hp.unshared (by rw [hphase]; decide))
    refine ⟨h.hostname, ?_⟩
    simpa [Kernel.umount, hsees] using h.mounts

end Child

/-- While `main` holds the stack. -/
def ParentPhase.holdsStack : ParentPhase → Bool
  | .arguments | .malloc | .done _ => false
  | _ => true

/-- `clone` has succeeded. -/
def ParentPhase.cloned : ParentPhase → Bool
  | .arguments | .malloc | .clone | .done 1 => false
  | _ => true

/-- The child has become the command of the arguments, and nothing has changed for it since. -/
def Executed (cfg : Config) (s : State) : Event → Prop
  | .execvp file argv => file = cfg.argv[1]? ∧ argv = cfg.run_arg ∧
      ∃ c ∈ s.child, Confined s.kernel c.process ∧ (c.phase = .command ∨ c.phase.ended = true)
  | _ => True

structure Isolated (cfg : Config) (s : State) (log : List Event) : Prop where
  untouched : Untouched cfg s.kernel
  progress : ∀ c ∈ s.child, Progress s.kernel c
  executed : ∀ e ∈ log, Executed cfg s e
  cloned : s.child.isSome = s.parent.cloned
  stack : (ledger Event.stackMove).replay log =
    some (if s.parent.holdsStack then {()} else ∅)

section Runs
variable {cfg : Config} {s s' : State} {log evs : List Event}

theorem run_arg_head : cfg.run_arg.head?.join = cfg.argv[1]? := by
  unfold Config.run_arg
  rcases cfg.argv with _ | ⟨_, _ | ⟨_, _⟩⟩ <;> simp

/-- Steps of `main` do not touch the child. -/
theorem Executed.congr {e : Event} (h : Executed cfg s e) (hkernel : s'.kernel = s.kernel)
    (hchild : s'.child = s.child) : Executed cfg s' e := by
  cases e with
  | execvp file argv => rwa [Executed, hkernel, hchild]
  | malloc | free | printed _ => trivial

theorem Isolated.child {kernel : Kernel} {c c' : Child} (h : Isolated cfg s log)
    (hc : s.child = some c) (hrunning : c.phase.ended = false)
    (hcalls : Calls cfg s.kernel c kernel c' evs) :
    Isolated cfg { s with kernel, child := some c' } (log ++ evs) := by
  have hprogress := h.progress c hc
  have hprogress' := hcalls.progress hprogress
  refine ⟨hcalls.untouched hprogress h.untouched, ?_, fun e he => ?_, ?_, ?_⟩
  · rintro x ⟨⟩
    exact hprogress'
  · rcases List.mem_append.mp he with he | he
    · have hold := h.executed e he
      cases e with
      | malloc | free | printed _ => trivial
      | execvp file argv =>
        obtain ⟨hfile, hargv, d, hd, hconfined, hphase⟩ := hold
        obtain rfl := Option.some.inj (hd.symm.trans hc)
        rw [hrunning] at hphase
        have hcommand : d.phase = .command := by simpa using hphase
        refine ⟨hfile, hargv, c', rfl, ?_⟩
        cases hcalls with
        | ends _ => exact ⟨hconfined, .inr rfl⟩
        | fail hne => exact absurd hcommand hne
        | mountPrivate hne | sethostname hne | chroot hne | chdir hne | mountProc hne | execvp hne
        | giveUp hne | umount hne => simp [hcommand] at hne
    · cases hcalls with
      | execvp hphase =>
        obtain rfl := List.mem_singleton.mp he
        refine ⟨run_arg_head, rfl, _, rfl, ?_, .inl rfl⟩
        exact hprogress.confined (by simp [hphase, ChildPhase.passed])
      | fail _ | mountPrivate _ | sethostname _ | chroot _ | chdir _ | mountProc _ | giveUp _
      | umount _ | ends _ => cases he
  · simpa [hc] using h.cloned
  · rw [Spec.replay_append _ h.stack]
    cases hcalls <;> rfl

/-- A step of `main` other than `clone`. -/
theorem Isolated.advance (h : Isolated cfg s log) (hkernel : s'.kernel = s.kernel)
    (hchild : s'.child = s.child) (hexec : ∀ file argv, .execvp file argv ∉ evs)
    (hcloned : s'.parent.cloned = s.parent.cloned)
    (hstack : (ledger Event.stackMove).replayFrom (if s.parent.holdsStack then {()} else ∅) evs =
      some (if s'.parent.holdsStack then {()} else ∅)) : Isolated cfg s' (log ++ evs) := by
  refine ⟨hkernel ▸ h.untouched, ?_, fun e he => ?_, ?_, ?_⟩
  · rw [hkernel, hchild]
    exact h.progress
  · rcases List.mem_append.mp he with he | he
    · exact (h.executed e he).congr hkernel hchild
    · cases e with
      | execvp file argv => exact absurd he (hexec file argv)
      | malloc | free | printed _ => trivial
  · rw [hchild, hcloned]
    exact h.cloned
  · rw [Spec.replay_append _ h.stack, hstack]

theorem Isolated.main {ok : Bool} (h : Isolated cfg s log)
    (hs : Rocker.main cfg s ok = some (s', evs)) : Isolated cfg s' (log ++ evs) := by
  unfold Rocker.main at hs
  split at hs
  · rename_i hparent
    split at hs <;> obtain ⟨rfl, rfl⟩ := Prod.mk.inj (Option.some.inj hs) <;>
      exact h.advance rfl rfl (by simp) (by rw [hparent]; rfl) (by rw [hparent]; rfl)
  · rename_i hparent
    split at hs <;> obtain ⟨rfl, rfl⟩ := Prod.mk.inj (Option.some.inj hs) <;>
      exact h.advance rfl rfl (by simp) (by rw [hparent]; rfl) (by rw [hparent]; rfl)
  · rename_i hparent
    split at hs
    · obtain ⟨rfl, rfl⟩ := Prod.mk.inj (Option.some.inj hs)
      -- before there is a child, nothing has been executed
      have hnone : s.child = none := by
        have hcloned := h.cloned
        rw [hparent] at hcloned
        exact Option.not_isSome_iff_eq_none.mp (by simp [hcloned, ParentPhase.cloned])
      refine ⟨⟨h.untouched.hostname, h.untouched.mounts⟩, ?_, fun e he => ?_, rfl, ?_⟩
      · rintro c ⟨⟩
        exact ⟨rfl, rfl, rfl, by simp [ChildPhase.passed], by simp [ChildPhase.passed],
          by simp [ChildPhase.passed], by simp [ChildPhase.passed], by simp [ChildPhase.passed]⟩
      · cases e with
        | execvp file argv =>
          obtain ⟨-, -, c, hc, -⟩ := h.executed _ (by simpa using he)
          rw [hnone] at hc
          cases hc
        | malloc | free | printed _ => trivial
      · rw [List.append_nil, h.stack, hparent]
        rfl
    · obtain ⟨rfl, rfl⟩ := Prod.mk.inj (Option.some.inj hs)
      exact h.advance rfl rfl (by simp) (by rw [hparent]; rfl) (by rw [hparent]; rfl)
  · rename_i hparent
    obtain ⟨rfl, rfl⟩ := Prod.mk.inj (Option.some.inj hs)
    refine h.advance rfl rfl (by simp) ?_ ?_ <;> cases ok <;> rw [hparent] <;> rfl
  · rename_i hparent
    obtain ⟨rfl, rfl⟩ := Prod.mk.inj (Option.some.inj hs)
    exact h.advance rfl rfl (by simp) (by rw [hparent]; rfl) (by rw [hparent]; rfl)
  · rename_i hparent
    obtain ⟨rfl, rfl⟩ := Prod.mk.inj (Option.some.inj hs)
    exact h.advance rfl rfl (by simp) (by rw [hparent]; rfl) (by rw [hparent]; rfl)
  · rename_i hparent
    obtain ⟨rfl, rfl⟩ := Prod.mk.inj (Option.some.inj hs)
    exact h.advance rfl rfl (by simp) (by rw [hparent]; rfl) (by rw [hparent]; rfl)
  · rename_i hparent
    split at hs
    · cases hs
    · obtain ⟨rfl, rfl⟩ := Prod.mk.inj (Option.some.inj hs)
      exact h.advance rfl rfl (by simp) (by rw [hparent]; rfl) (by rw [hparent]; rfl)
  · rename_i hparent
    obtain ⟨rfl, rfl⟩ := Prod.mk.inj (Option.some.inj hs)
    exact h.advance rfl rfl (by simp) (by rw [hparent]; rfl) (by rw [hparent]; rfl)
  · cases hs

theorem isolated_of_run (hrun : (system cfg).Run s log) : Isolated cfg s log := by
  refine hrun.invariant (I := Isolated cfg) ⟨⟨rfl, rfl⟩, by simp [system], by simp, rfl, rfl⟩
    fun s log act s' evs _ h _ hs => ?_
  cases act with
  | parent ok => exact h.main hs
  | child ok =>
    simp only [system, step] at hs
    split at hs
    · cases hs
    · rename_i c hc
      split at hs
      · cases hs
      · rename_i hrunning
        obtain ⟨rfl, rfl⟩ := Prod.mk.inj (Option.some.inj hs)
        have hended : c.phase.ended = false := by simpa using hrunning
        exact h.child hc hended (runtime_calls (h.progress c hc) hended rfl)

/-- Whatever fails and however the parent and the child interleave: the host keeps its name and its
mounts, even if it shares them; the command is executed only in a container with its own name, its
own root and a `/proc` of its own processes, with the arguments given and a null pointer behind
them; and `main` frees the stack that it has allocated exactly once before it returns. -/
theorem container_isolated (hrun : (system cfg).Run s log) :
    s.kernel.hostname .host = cfg.kernel.hostname .host ∧
      s.kernel.mounts .host = cfg.kernel.mounts .host ∧
      (∀ file argv, .execvp file argv ∈ log → file = cfg.argv[1]? ∧
        argv = (cfg.argv.drop 1).map some ++ [none] ∧
        ∃ c ∈ s.child, Confined s.kernel c.process) ∧
      (ledger Event.stackMove).replay log = some (if s.parent.holdsStack then {()} else ∅) ∧
      ∀ status, s.parent = .done status → (log.map Event.stackMove).count (.release ()) =
        (log.map Event.stackMove).count (.acquire ()) := by
  have h := isolated_of_run hrun
  refine ⟨h.untouched.hostname, h.untouched.mounts, fun file argv hmem => ?_, h.stack,
    fun status hdone => ?_⟩
  · obtain ⟨hfile, hargv, c, hc, hconfined, -⟩ := h.executed _ hmem
    exact ⟨hfile, hargv, c, hc, hconfined⟩
  · have hcount := ledger_count h.stack ()
    rw [hdone] at hcount
    simpa [ParentPhase.holdsStack] using hcount.symm

end Runs

/-- A shell on a host that shares its mounts. -/
def shell : Config where
  argv := ["rocker", "/bin/sh", "-i"]
  kernel := ⟨fun _ => "laptop", fun _ => [⟨"/proc", .host⟩], fun _ => true⟩
  cgroup := ⟨[], "max", "max"⟩
  cwd := "/home/abby/"
  pid := 4711

/-- The child becomes the command before the limits are written. -/
theorem container_isolated_shell : ∃ s log, (system shell).Run s log ∧
    .execvp (some "/bin/sh") [some "/bin/sh", some "-i", none] ∈ log ∧
    s.kernel.mounts .host = [⟨"/proc", .host⟩] ∧ ∃ c ∈ s.child, Confined s.kernel c.process := by
  obtain ⟨s, log, hrun, hq⟩ := (system shell).exists_run_of_exec (fun _ _ => True)
    [.parent true, .parent true, .parent true, .child true, .child true, .child true, .child true,
      .child true, .child true, .parent true, .parent true]
    (fun _ log => decide (.execvp (some "/bin/sh") [some "/bin/sh", some "-i", none] ∈ log))
    (by decide +kernel)
  have hexec := of_decide_eq_true hq
  obtain ⟨-, hmounts, hcommand, -⟩ := container_isolated hrun
  obtain ⟨-, -, hconfined⟩ := hcommand _ _ hexec
  exact ⟨s, log, hrun, hexec, hmounts, hconfined⟩

end Rocker
