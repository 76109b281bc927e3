import LowLevelCpp.Framebuffer.Model
import Mathlib.Data.List.TakeWhile

/-!
What `main` holds of SDL. Whatever fails, it uses each resource only while it is there and releases
what it has created in the reverse order; after a request to quit it shows one more frame.
-/
namespace Framebuffer
open Foundations Foundations.System

/-- A renderer belongs to a window, and a texture to a renderer. -/
def Call.use : Call → Use Resource
  | .created (.video _) => .opens .video []
  | .created (.window _ _ _ _) => .opens .window [.video]
  | .created (.renderer _) => .opens .renderer [.window]
  | .created (.texture _ _ _ _) => .opens .texture [.renderer]
  | .setTextureScaleMode _ _ | .updateTexture _ _ _ | .renderTexture _ => .uses .texture
  | .renderClear _ | .renderPresent _ => .uses .renderer
  | .pollEvent _ => .uses .video
  | .destroyed r => .closes r
  | .delay | .printed _ => .other

/-- What `main` holds, the last first. -/
def Phase.held : Phase → List Resource
  | .init | .done _ => []
  | .createWindow | .quit _ => [.video]
  | .createRenderer | .destroyWindow _ => [.window, .video]
  | .createTexture | .destroyRenderer _ => [.renderer, .window, .video]
  | .setTextureScaleMode | .pollEvent | .updateTexture | .renderClear | .renderTexture
  | .renderPresent | .delay | .destroyTexture => [.texture, .renderer, .window, .video]

/-- The status with which `main` is about to return. -/
def Phase.status : Phase → Option ℕ
  | .destroyRenderer status | .destroyWindow status | .quit status | .done status => some status
  | _ => none

/-- Everything has been created, now or before it was released. -/
def Phase.built : Phase → Bool
  | .init | .createWindow | .createRenderer | .createTexture => false
  | .destroyRenderer status | .destroyWindow status | .quit status | .done status =>
    status == EXIT_SUCCESS
  | _ => true

def Call.isPrinted : Call → Bool
  | .printed _ => true
  | _ => false

def Call.isTexture : Call → Bool
  | .created (.texture _ _ _ _) => true
  | _ => false

def Call.isQuit : Call → Bool
  | .pollEvent (some type) => type == SDL_EVENT_QUIT
  | _ => false

def Call.presents : Call → Bool
  | .renderPresent _ => true
  | _ => false

section Steps

/-- The calls that create, with the phases that follow if they succeed and if they fail. -/
inductive Creates : Phase → Creation → Phase → Phase → Prop
  | video : Creates .init (.video SDL_INIT_VIDEO) .createWindow (.done EXIT_FAILURE)
  | window : Creates .createWindow (.window "SDL Framebuffer" (WIDTH * 4) (HEIGHT * 4) 0)
      .createRenderer (.quit EXIT_FAILURE)
  | renderer : Creates .createRenderer (.renderer none) .createTexture (.destroyWindow EXIT_FAILURE)
  | texture : Creates .createTexture
      (.texture SDL_PIXELFORMAT_XRGB8888 SDL_TEXTUREACCESS_STREAMING WIDTH HEIGHT)
      .setTextureScaleMode (.destroyRenderer EXIT_FAILURE)

/-- The calls whose answers are not looked at. -/
inductive Draws (framebuffer : Pixels) : Phase → (Bool → Call) → Phase → Prop
  | scaleMode : Draws framebuffer .setTextureScaleMode
      (.setTextureScaleMode SDL_SCALEMODE_NEAREST) .pollEvent
  | update : Draws framebuffer .updateTexture (.updateTexture framebuffer (WIDTH * 4)) .renderClear
  | clear : Draws framebuffer .renderClear .renderClear .renderTexture
  | texture : Draws framebuffer .renderTexture .renderTexture .renderPresent
  | present : Draws framebuffer .renderPresent .renderPresent .delay

inductive Destroys : Phase → Resource → Phase → Prop
  | texture : Destroys .destroyTexture .texture (.destroyRenderer EXIT_SUCCESS)
  | renderer (status : ℕ) : Destroys (.destroyRenderer status) .renderer (.destroyWindow status)
  | window (status : ℕ) : Destroys (.destroyWindow status) .window (.quit status)
  | video (status : ℕ) : Destroys (.quit status) .video (.done status)

/-- What a step of `main` can be. -/
inductive Turns (s : State) : Act → State → List Call → Prop
  | created {c : Creation} {next cleanup : Phase} : Creates s.phase c next cleanup →
      Turns s .ok { s with phase := next } [.created c]
  | refused {c : Creation} {next cleanup : Phase} {error line : String} :
      Creates s.phase c next cleanup →
      Turns s (.failed error) { s with phase := cleanup } [.printed line]
  | drawn {call : Bool → Call} {next : Phase} : Draws s.framebuffer s.phase call next →
      Turns s .ok { s with phase := next } [call true]
  | undrawn {call : Bool → Call} {next : Phase} {error : String} :
      Draws s.framebuffer s.phase call next →
      Turns s (.failed error) { s with phase := next } [call false]
  | event {type : BitVec 32} : s.phase = .pollEvent →
      Turns s (.event (some type))
        { s with
          phase := .pollEvent
          is_running := if type = SDL_EVENT_QUIT then false else s.is_running }
        [.pollEvent (some type)]
  | painted : s.phase = .pollEvent →
      Turns s (.event none) { s with phase := .updateTexture, framebuffer := s.paint }
        [.pollEvent none]
  | turned {early : Bool} : s.phase = .delay →
      Turns s (.elapsed early)
        { s with
          phase := if s.is_running then .pollEvent else .destroyTexture
          frame := s.frame + 1 }
        (if early then [.delay] else [])
  | destroyed {r : Resource} {next : Phase} : Destroys s.phase r next →
      Turns s .ok { s with phase := next } [.destroyed r]

variable {s s' : State} {act : Act} {evs : List Call} {c : Creation} {r : Resource}
  {next cleanup : Phase}

theorem turns_create {name : String} (hp : Creates s.phase c next cleanup)
    (h : create s c name next cleanup act = some (s', evs)) : Turns s act s' evs := by
  cases act with
  | ok =>
    obtain ⟨rfl, rfl⟩ := Prod.mk.inj (Option.some.inj h)
    exact .created hp
  | failed error =>
    obtain ⟨rfl, rfl⟩ := Prod.mk.inj (Option.some.inj h)
    exact .refused hp
  | event _ => cases h
  | elapsed _ => cases h

theorem turns_draw {call : Bool → Call} (hp : Draws s.framebuffer s.phase call next)
    (h : draw s call next act = some (s', evs)) : Turns s act s' evs := by
  cases act with
  | ok =>
    obtain ⟨rfl, rfl⟩ := Prod.mk.inj (Option.some.inj h)
    exact .drawn hp
  | failed error =>
    obtain ⟨rfl, rfl⟩ := Prod.mk.inj (Option.some.inj h)
    exact .undrawn hp
  | event _ => cases h
  | elapsed _ => cases h

theorem turns_destroy (hp : Destroys s.phase r next)
    (h : destroy s r next act = some (s', evs)) : Turns s act s' evs := by
  cases act with
  | ok =>
    obtain ⟨rfl, rfl⟩ := Prod.mk.inj (Option.some.inj h)
    exact .destroyed hp
  | failed _ => cases h
  | event _ => cases h
  | elapsed _ => cases h

theorem turns_of_main : main s act = some (s', evs) → Turns s act s' evs := by
  unfold main
  cases hp : s.phase with
  | init => exact turns_create (hp ▸ .video)
  | createWindow => exact turns_create (hp ▸ .window)
  | createRenderer => exact turns_create (hp ▸ .renderer)
  | createTexture => exact turns_create (hp ▸ .texture)
  | setTextureScaleMode => exact turns_draw (hp ▸ .scaleMode)
  | pollEvent =>
    intro h
    cases act with
    | event type =>
      cases type with
      | none =>
        obtain ⟨rfl, rfl⟩ := Prod.mk.inj (Option.some.inj h)
        exact .painted hp
      | some type =>
        obtain ⟨rfl, rfl⟩ := Prod.mk.inj (Option.some.inj h)
        exact .event hp
    | ok | failed _ | elapsed _ => cases h
  | updateTexture => exact turns_draw (hp ▸ .update)
  | renderClear => exact turns_draw (hp ▸ .clear)
  | renderTexture => exact turns_draw (hp ▸ .texture)
  | renderPresent => exact turns_draw (hp ▸ .present)
  | delay =>
    intro h
    cases act with
    | elapsed early =>
      obtain ⟨rfl, rfl⟩ := Prod.mk.inj (Option.some.inj h)
      exact .turned hp
    | ok | failed _ | event _ => cases h
  | destroyTexture => exact turns_destroy (hp ▸ .texture)
  | destroyRenderer status => exact turns_destroy (hp ▸ .renderer status)
  | destroyWindow status => exact turns_destroy (hp ▸ .window status)
  | quit status => exact turns_destroy (hp ▸ .video status)
  | done _ =>
    intro h
    cases h

end Steps

section Release
variable {s s' : State} {log evs : List Call} {act : Act} {c : Creation} {r : Resource}
  {next cleanup : Phase} {framebuffer : Pixels} {call : Bool → Call}

theorem Draws.held {phase : Phase} (h : Draws framebuffer phase call next) (ok : Bool) :
    (nested Call.use).replayFrom phase.held [call ok] = some next.held := by
  cases h <;> rfl

theorem Creates.held {phase : Phase} (h : Creates phase c next cleanup) :
    (nested Call.use).replayFrom phase.held [.created c] = some next.held ∧
      phase.held = cleanup.held := by
  cases h <;> exact ⟨rfl, rfl⟩

theorem Destroys.held {phase : Phase} (h : Destroys phase r next) :
    (nested Call.use).replayFrom phase.held [.destroyed r] = some next.held := by
  cases h <;> rfl

/-- Each call only uses what is there, and releases what was created last. -/
theorem Turns.held (h : Turns s act s' evs) :
    (nested Call.use).replayFrom s.phase.held evs = some s'.phase.held := by
  cases h with
  | created hp => exact hp.held.1
  | refused hp => exact congrArg some hp.held.2
  | drawn hp | undrawn hp => exact hp.held _
  | event hp | painted hp =>
    rw [hp]
    rfl
  | @turned early hp =>
    rw [hp]
    cases early <;> cases s.is_running <;> rfl
  | destroyed hp => exact hp.held

/-- What the log says about how far `main` has come. -/
structure Told (phase : Phase) (log : List Call) : Prop where
  status : ∀ status, phase.status = some status → status = EXIT_SUCCESS ∨ status = EXIT_FAILURE
  texture : log.countP Call.isTexture = if phase.built then 1 else 0
  printed : log.countP Call.isPrinted = if phase.status = some EXIT_FAILURE then 1 else 0

/-- A call that neither creates the texture nor prints. -/
theorem Told.advance {phase phase' : Phase} (h : Told phase log)
    (hstatus : phase'.status = phase.status) (hbuilt : phase'.built = phase.built)
    (hevs : ∀ c ∈ evs, c.isTexture = false ∧ c.isPrinted = false) : Told phase' (log ++ evs) := by
  have htexture : evs.countP Call.isTexture = 0 :=
    List.countP_eq_zero.mpr fun c hc => by simp [(hevs c hc).1]
  have hprinted : evs.countP Call.isPrinted = 0 :=
    List.countP_eq_zero.mpr fun c hc => by simp [(hevs c hc).2]
  constructor
  · rw [hstatus]
    exact h.status
  · rw [List.countP_append, htexture, h.texture, hbuilt]
    rfl
  · rw [List.countP_append, hprinted, h.printed, hstatus]
    rfl

theorem Creates.told {phase : Phase} (h : Creates phase c next cleanup) (ht : Told phase log) :
    Told next (log ++ [.created c]) := by
  obtain ⟨-, htexture, hprinted⟩ := ht
  cases h <;> refine ⟨by simp [Phase.status], ?_, ?_⟩ <;>
    simp [htexture, hprinted, Phase.built, Phase.status, Call.isTexture, Call.isPrinted]

theorem Creates.refused {phase : Phase} (h : Creates phase c next cleanup) (ht : Told phase log)
    (line : String) : Told cleanup (log ++ [.printed line]) := by
  obtain ⟨-, htexture, hprinted⟩ := ht
  cases h <;> refine ⟨by simp [Phase.status], ?_, ?_⟩ <;>
    simp [htexture, hprinted, Phase.built, Phase.status, Call.isTexture, Call.isPrinted,
      EXIT_SUCCESS, EXIT_FAILURE]

theorem Draws.told {phase : Phase} (h : Draws framebuffer phase call next) (ht : Told phase log)
    (ok : Bool) : Told next (log ++ [call ok]) := by
  cases h <;> exact ht.advance rfl rfl (by simp [Call.isTexture, Call.isPrinted])

theorem Destroys.told {phase : Phase} (h : Destroys phase r next) (ht : Told phase log) :
    Told next (log ++ [.destroyed r]) := by
  cases h with
  | texture =>
    obtain ⟨-, htexture, hprinted⟩ := ht
    exact ⟨by simp [Phase.status], by simp [htexture, Phase.built, Call.isTexture],
      by simp [hprinted, Phase.status, Call.isPrinted, EXIT_SUCCESS, EXIT_FAILURE]⟩
  | renderer _ | window _ | video _ =>
    exact ht.advance rfl rfl (by simp [Call.isTexture, Call.isPrinted])

theorem Turns.told (h : Turns s act s' evs) (ht : Told s.phase log) :
    Told s'.phase (log ++ evs) := by
  cases h with
  | created hp => exact hp.told ht
  | refused hp => exact hp.refused ht _
  | drawn hp | undrawn hp => exact hp.told ht _
  | event hp | painted hp =>
    rw [hp] at ht
    exact ht.advance rfl rfl (by simp [Call.isTexture, Call.isPrinted])
  | @turned early hp =>
    rw [hp] at ht
    cases early <;> cases s.is_running <;>
      exact ht.advance rfl rfl (by simp [Call.isTexture, Call.isPrinted])
  | destroyed hp => exact hp.told ht

theorem held_of_run {P : State → Act → Prop} (hrun : system.RunWhere P s log) :
    (nested Call.use).replay log = some s.phase.held := by
  refine hrun.invariant (I := fun s log => (nested Call.use).replay log = some s.phase.held) rfl
    fun s log act s' evs _ h _ hs => ?_
  rw [Spec.replay_append _ h, (turns_of_main hs).held]

theorem told_of_run {P : State → Act → Prop} (hrun : system.RunWhere P s log) :
    Told s.phase log :=
  hrun.invariant (I := fun s log => Told s.phase log) ⟨by simp [system, Phase.status], rfl, rfl⟩
    fun _ _ _ _ _ _ h _ hs => (turns_of_main hs).told h

end Release

section Quit
variable {s s' : State} {log evs : List Call} {act : Act} {r : Resource} {next cleanup : Phase}
  {framebuffer : Pixels} {call : Bool → Call}

/-- The calls from the first one that returns a request to quit. -/
def afterQuit (log : List Call) : List Call := log.dropWhile fun c => !c.isQuit

def Phase.creates : Phase → Bool
  | .init | .createWindow | .createRenderer | .createTexture => true
  | _ => false

/-- The last frame of a turn has been shown, if there is one. -/
def Phase.presented : Phase → Bool
  | .delay | .destroyTexture | .destroyRenderer _ | .destroyWindow _ | .quit _ | .done _ => true
  | _ => false

/-- The loop has been left. -/
def Phase.left : Phase → Bool
  | .destroyTexture => true
  | .destroyRenderer status | .destroyWindow status | .quit status | .done status =>
    status == EXIT_SUCCESS
  | _ => false

theorem afterQuit_append_of_any (h : log.any Call.isQuit = true) :
    afterQuit (log ++ evs) = afterQuit log ++ evs := by
  have hne : ¬ (log.dropWhile fun c => !c.isQuit).isEmpty = true := by
    rw [List.isEmpty_iff, List.dropWhile_eq_nil_iff]
    obtain ⟨c, hc, hquit⟩ := List.any_eq_true.mp h
    intro hall
    simpa [hquit] using hall c hc
  rw [afterQuit, List.dropWhile_append, if_neg hne, afterQuit]

theorem afterQuit_append_of_not_any (h : log.any Call.isQuit = false) :
    afterQuit (log ++ evs) = afterQuit evs := by
  apply List.dropWhile_append_of_pos
  intro c hc
  simpa using List.any_eq_false.mp h c hc

/-- How the loop has been asked to stop. -/
structure Asked (s : State) (log : List Call) : Prop where
  running : s.is_running = !log.any Call.isQuit
  starts : s.phase.creates = true → s.is_running = true
  stops : s.phase.left = true → s.is_running = false
  late : s.is_running = false →
    (afterQuit log).countP Call.presents = if s.phase.presented then 1 else 0

/-- A step that brings no request. -/
theorem Asked.advance (h : Asked s log) (hrunning : s'.is_running = s.is_running)
    (hevs : ∀ c ∈ evs, c.isQuit = false)
    (hstarts : s'.phase.creates = true → s.phase.creates = true)
    (hstops : s'.phase.left = true → s.is_running = false)
    (hlate : s.is_running = false → (if s.phase.presented then 1 else 0) +
      evs.countP Call.presents = if s'.phase.presented then 1 else 0) :
    Asked s' (log ++ evs) := by
  have hany : evs.any Call.isQuit = false :=
    List.any_eq_false.mpr fun c hc => by simp [hevs c hc]
  refine ⟨?_, fun hp => ?_, fun hp => ?_, fun hfalse => ?_⟩
  · rw [hrunning, h.running, List.any_append, hany, Bool.or_false]
  · rw [hrunning, h.starts (hstarts hp)]
  · rw [hrunning, hstops hp]
  · rw [hrunning] at hfalse
    have hasked : log.any Call.isQuit = true := by simpa [hfalse] using h.running
    rw [afterQuit_append_of_any hasked, List.countP_append, h.late hfalse]
    exact hlate hfalse

/-- A request, the first one or not. -/
theorem Asked.request (h : Asked s log) (hp : s.phase = .pollEvent) :
    Asked { s with phase := .pollEvent, is_running := false }
      (log ++ [.pollEvent (some SDL_EVENT_QUIT)]) := by
  refine ⟨by simp [Call.isQuit], by simp [Phase.creates], fun _ => rfl, fun _ => ?_⟩
  cases hany : log.any Call.isQuit with
  | true =>
    have hlate := h.late (by rw [h.running, hany]; rfl)
    rw [hp] at hlate
    rw [afterQuit_append_of_any hany, List.countP_append, hlate]
    rfl
  | false =>
    rw [afterQuit_append_of_not_any hany]
    rfl

theorem Turns.asked (h : Turns s act s' evs) (ha : Asked s log) : Asked s' (log ++ evs) := by
  obtain ⟨phase, fb, is_running, frame⟩ := s
  cases h with
  | created hp | drawn hp | undrawn hp =>
    cases hp <;> exact ha.advance rfl (by simp [Call.isQuit]) (by simp [Phase.creates])
      (by simp [Phase.left]) (by simp [Phase.presented, Call.presents])
  | destroyed hp =>
    cases hp <;> exact ha.advance rfl (by simp [Call.isQuit]) (by simp [Phase.creates])
      ha.stops (by simp [Phase.presented, Call.presents])
  | refused hp =>
    -- before the loop nobody has asked it to stop
    have hrunning : is_running = true := ha.starts (by cases hp <;> rfl)
    cases hp <;> exact ha.advance rfl (by simp [Call.isQuit]) (by simp [Phase.creates])
      (by simp [Phase.left, EXIT_SUCCESS, EXIT_FAILURE]) (by simp [hrunning])
  | @event type hp =>
    obtain rfl : phase = .pollEvent := hp
    by_cases hquit : type = SDL_EVENT_QUIT
    · subst hquit
      exact ha.request rfl
    · simp only [if_neg hquit]
      exact ha.advance rfl (by simpa [Call.isQuit] using hquit) (by simp [Phase.creates])
        (by simp [Phase.left]) (by simp [Phase.presented, Call.presents])
  | painted hp =>
    obtain rfl : phase = .pollEvent := hp
    exact ha.advance rfl (by simp [Call.isQuit]) (by simp [Phase.creates])
      (by simp [Phase.left]) (by simp [Phase.presented, Call.presents])
  | @turned early hp =>
    obtain rfl : phase = .delay := hp
    cases early <;> cases is_running <;>
      exact ha.advance rfl (by simp [Call.isQuit]) (by simp [Phase.creates])
        (by simp [Phase.left]) (by simp [Phase.presented, Call.presents])

theorem asked_of_run {P : State → Act → Prop} (hrun : system.RunWhere P s log) : Asked s log := by
  refine hrun.invariant (I := Asked) ?_ fun _ _ _ _ _ _ h _ hs => (turns_of_main hs).asked h
  exact ⟨rfl, fun _ => rfl, by simp [system, Phase.left], by simp [system]⟩

/-- Whatever fails, and after any number of turns: each call finds what it uses, and what is created
is released in the reverse order. After a request to quit at most one frame is shown. When `main`
returns, everything is released as often as it was created, and either it was asked to, has shown
that frame and has printed nothing, or there has been no texture, one line says so and the status
is that of a failure. -/
theorem releases_in_reverse (hrun : system.Run s log) :
    (nested Call.use).replay log = some s.phase.held ∧
      (afterQuit log).countP Call.presents ≤ 1 ∧
      ∀ status, s.phase = .done status →
        (∀ r, (log.map fun c => c.use.move).count (.acquire r) =
          (log.map fun c => c.use.move).count (.release r)) ∧
        (status = EXIT_SUCCESS ∧ log.any Call.isQuit = true ∧
            (afterQuit log).countP Call.presents = 1 ∧ log.countP Call.isPrinted = 0 ∨
          status = EXIT_FAILURE ∧ log.countP Call.isTexture = 0 ∧
            log.countP Call.isPrinted = 1) := by
  have hheld := held_of_run hrun
  have hasked := asked_of_run hrun
  refine ⟨hheld, ?_, fun status hdone => ?_⟩
  · cases hrunning : s.is_running with
    | true =>
      have hany : log.any Call.isQuit = false := by simpa [hrunning] using hasked.running
      rw [← List.append_nil log, afterQuit_append_of_not_any hany]
      exact Nat.zero_le 1
    | false =>
      rw [hasked.late hrunning]
      split <;> decide
  · obtain ⟨hstatus, htexture, hprinted⟩ := told_of_run hrun
    have hstops := hasked.stops
    have hlate := hasked.late
    rw [hdone] at hheld hstatus htexture hprinted hstops hlate
    refine ⟨fun r => nested_count hheld r, ?_⟩
    rcases hstatus status rfl with rfl | rfl
    · have hfalse := hstops rfl
      refine .inl ⟨rfl, ?_, hlate hfalse, hprinted⟩
      simpa [hfalse] using hasked.running
    · exact .inr ⟨rfl, htexture, hprinted⟩

/-- There is no texture for the renderer, which is then released with the window. -/
theorem releases_in_reverse_noTexture : ∃ s log, system.Run s log ∧
    s.phase = .done EXIT_FAILURE ∧ log.countP Call.isPrinted = 1 ∧
    (log.map fun c => c.use.move).count (.release .renderer) = 1 := by
  obtain ⟨s, log, hrun, hq⟩ := system.exists_run_of_exec (fun _ _ => True)
    [.ok, .ok, .ok, .failed "out of memory", .ok, .ok, .ok]
    (fun s log => decide (s.phase = .done EXIT_FAILURE ∧
      (log.map fun c => c.use.move).count (.acquire .renderer) = 1)) (by decide +kernel)
  obtain ⟨hdone, hcount⟩ := of_decide_eq_true hq
  obtain ⟨-, -, hstatus⟩ := releases_in_reverse hrun
  obtain ⟨hbalance, ⟨hne, -⟩ | ⟨-, -, hprinted⟩⟩ := hstatus _ hdone
  · cases hne
  · exact ⟨s, log, hrun, hdone, hprinted, (hbalance .renderer).symm.trans hcount⟩

end Quit

end Framebuffer
