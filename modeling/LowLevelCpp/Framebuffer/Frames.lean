import LowLevelCpp.Framebuffer.Release
import Mathlib.Algebra.Group.Nat.Defs

/-!
What `main` hands to SDL to be shown. Each picture is grey but for one pixel, which moves to the
right from frame to frame until the counter of frames wraps around; no call that draws is left out
or made in another order, whatever SDL answers.
-/
namespace Framebuffer
open Foundations Foundations.System

/-- The calls that draw, without their answers. -/
inductive Drawing where
  | scaleMode (mode : ℕ)
  | update (pixels : Pixels) (pitch : ℕ)
  | clear
  | texture
  | present

def Call.drawing? : Call → Option Drawing
  | .setTextureScaleMode mode _ => some (.scaleMode mode)
  | .updateTexture pixels pitch _ => some (.update pixels pitch)
  | .renderClear _ => some .clear
  | .renderTexture _ => some .texture
  | .renderPresent _ => some .present
  | .created _ | .pollEvent _ | .delay | .destroyed _ | .printed _ => none

def drawings (log : List Call) : List Drawing := log.filterMap Call.drawing?

/-- Where the green pixel is in frame `n`. -/
def column (n : ℕ) : ℕ := n % 2 ^ 32 % WIDTH

/-- The framebuffer in frame `n`: a green pixel in the middle row, on grey. -/
def picture (n : ℕ) : Pixels := fun i =>
  if i.val = WIDTH * (HEIGHT / 2) + column n then 0x00FF00 else 0x2A2A2A

/-- What is drawn in frame `n`. A row of the framebuffer has four bytes for each pixel. -/
def turn (n : ℕ) : List Drawing := [.update (picture n) (WIDTH * 4), .clear, .texture, .present]

/-- What is drawn before frame `n`. -/
def before (n : ℕ) : List Drawing :=
  .scaleMode SDL_SCALEMODE_NEAREST :: (List.range n).flatMap turn

theorem before_succ (n : ℕ) : before (n + 1) = before n ++ turn n := by
  simp [before, List.range_succ]

section Show
variable {s s' : State} {log evs : List Call} {act : Act} {n : ℕ}

theorem column_succ (n : ℕ) :
    column (n + 1) = if (n + 1) % 2 ^ 32 = 0 then 0 else (column n + 1) % WIDTH := by
  simp only [column, WIDTH]
  split <;> omega

theorem column_lt (n : ℕ) : column n < WIDTH := by
  simp only [column, WIDTH]
  omega

/-- A loop that writes one colour to the pixels of a list. -/
theorem foldl_write (is : List (Fin (WIDTH * HEIGHT))) (framebuffer : Pixels) (color : BitVec 32)
    (i : Fin (WIDTH * HEIGHT)) :
    is.foldl (fun framebuffer i => Function.update framebuffer i color) framebuffer i =
      if i ∈ is then color else framebuffer i := by
  induction is generalizing framebuffer with
  | nil => simp
  | cons k is ih =>
    rw [List.foldl_cons, ih]
    by_cases hi : i ∈ is
    · simp [hi]
    · by_cases hk : i = k <;> simp [hi, hk]

theorem clear_eq (framebuffer : Pixels) (color : BitVec 32) :
    clear framebuffer color = fun _ => color := by
  funext i
  rw [clear, foldl_write, if_pos (List.mem_finRange i)]

/-- What a turn draws does not depend on the turn before. -/
theorem paint_eq (h : s.frame = BitVec.ofNat 32 n) : s.paint = picture n := by
  have hx : (s.frame % 320).toNat = column n := by
    rw [h, BitVec.toNat_umod, BitVec.toNat_ofNat]
    rfl
  have hlt := column_lt n
  have hinside : ¬ Outside (column n) (HEIGHT / 2 : ℕ) := by
    simp only [Outside, WIDTH, HEIGHT] at hlt ⊢
    omega
  have hindex : (WIDTH * ((HEIGHT / 2 : ℕ) : ℤ) + (column n : ℤ)).toNat =
      WIDTH * (HEIGHT / 2) + column n := by
    exact_mod_cast Int.toNat_natCast (WIDTH * (HEIGHT / 2) + column n)
  rw [State.paint, clear_eq, hx, put_pixel, dif_neg hinside]
  funext i
  simp only [Function.update_apply, picture, Fin.ext_iff, hindex]

theorem drawings_concat (log : List Call) (c : Call) :
    drawings (log ++ [c]) = drawings log ++ c.drawing?.toList := by
  cases h : c.drawing? <;> simp [drawings, h]

/-- The scale mode has been set. -/
def Phase.scaled : Phase → Bool
  | .setTextureScaleMode => false
  | phase => phase.built

/-- How many calls of the current frame have been made. -/
def Phase.drawn : Phase → ℕ
  | .renderClear => 1
  | .renderTexture => 2
  | .renderPresent => 3
  | _ => 0

/-- What has been drawn in a phase of frame `n`. -/
def Phase.drawings (phase : Phase) (n : ℕ) : List Drawing :=
  if phase.scaled then before n ++ (turn n).take phase.drawn else []

theorem drawings_prefix (phase : Phase) (n : ℕ) : phase.drawings n <+: before (n + 1) := by
  unfold Phase.drawings
  split
  · rw [before_succ]
    exact (List.prefix_append_right_inj _).mpr (List.take_prefix _ _)
  · exact List.nil_prefix

structure Shows (s : State) (log : List Call) : Prop where
  soFar : drawings log = s.phase.drawings (log.countP Call.presents)
  started : s.phase.scaled = false → log.countP Call.presents = 0
  frame : BitVec.ofNat 32 (log.countP Call.presents) =
    if s.phase = .delay then s.frame + 1 else s.frame
  ready : s.phase = .updateTexture → s.framebuffer = picture (log.countP Call.presents)

/-- A call that does not draw. -/
theorem Shows.advance {c : Call} (h : Shows s log) (hcall : c.drawing? = none)
    (hpresents : c.presents = false) (hphase : ∀ n, s'.phase.drawings n = s.phase.drawings n)
    (hstarted : s'.phase.scaled = false → s.phase.scaled = false)
    (hframe : (if s'.phase = .delay then s'.frame + 1 else s'.frame) =
      if s.phase = .delay then s.frame + 1 else s.frame)
    (hready : s'.phase = .updateTexture →
      s'.framebuffer = picture (log.countP Call.presents)) : Shows s' (log ++ [c]) := by
  have hcount : (log ++ [c]).countP Call.presents = log.countP Call.presents := by
    simp [List.countP_append, hpresents]
  have hdrawings : drawings (log ++ [c]) = drawings log := by
    simp [drawings, hcall]
  constructor
  · rw [hdrawings, hcount, hphase, h.soFar]
  · rw [hcount]
    exact fun hscaled => h.started (hstarted hscaled)
  · rw [hcount, h.frame, hframe]
  · rw [hcount]
    exact hready

/-- One call on the way of a frame from the framebuffer to the window. -/
theorem Shows.drawn {phase next : Phase} {fb : Pixels} {is_running : Bool} {frame : BitVec 32}
    {call : Bool → Call} (h : Shows ⟨phase, fb, is_running, frame⟩ log)
    (hp : Draws fb phase call next) (ok : Bool) :
    Shows ⟨next, fb, is_running, frame⟩ (log ++ [call ok]) := by
  obtain ⟨hdrawings, hstarted, hframe, hready⟩ := h
  cases hp with
  | scaleMode =>
    have hnone : log.countP Call.presents = 0 := hstarted rfl
    refine ⟨?_, by simp [Phase.scaled, Phase.built], ?_, by simp⟩
    · simp only [drawings_concat, hdrawings, List.countP_append, hnone]
      rfl
    · simpa [Call.presents] using hframe
  | update =>
    refine ⟨?_, by simp [Phase.scaled, Phase.built], by simpa [Call.presents] using hframe, by simp⟩
    obtain rfl : fb = picture (log.countP Call.presents) := hready rfl
    simp only [drawings_concat, hdrawings]
    simp [Phase.drawings, Phase.scaled, Phase.built, Phase.drawn, turn, Call.drawing?,
      Call.presents]
  | clear | texture =>
    refine ⟨?_, by simp [Phase.scaled, Phase.built], by simpa [Call.presents] using hframe, by simp⟩
    simp only [drawings_concat, hdrawings]
    simp [Phase.drawings, Phase.scaled, Phase.built, Phase.drawn, turn, Call.drawing?,
      Call.presents]
  | present =>
    refine ⟨?_, by simp [Phase.scaled, Phase.built], ?_, by simp⟩
    · simp only [drawings_concat, hdrawings]
      simp [Phase.drawings, Phase.scaled, Phase.built, Phase.drawn, turn, Call.drawing?,
        Call.presents, before_succ]
    · simpa [Call.presents, BitVec.ofNat_add] using hframe

theorem Turns.shows (h : Turns s act s' evs) (hs : Shows s log) : Shows s' (log ++ evs) := by
  obtain ⟨phase, fb, is_running, frame⟩ := s
  cases h with
  | created hp | refused hp | destroyed hp =>
    cases hp <;> exact hs.advance rfl rfl (fun _ => rfl) (fun h => h) rfl (by simp)
  | drawn hp | undrawn hp => exact hs.drawn hp _
  | event hp =>
    obtain rfl : phase = .pollEvent := hp
    exact hs.advance rfl rfl (fun _ => rfl) (fun h => h) rfl (by simp)
  | painted hp =>
    obtain rfl : phase = .pollEvent := hp
    exact hs.advance rfl rfl (fun _ => rfl) (fun h => h) rfl fun _ => paint_eq hs.frame.symm
  | @turned early hp =>
    obtain rfl : phase = .delay := hp
    have hturn : Shows ⟨if is_running then .pollEvent else .destroyTexture, fb, is_running,
        frame + 1⟩ log := by
      obtain ⟨hdrawings, -, hframe, -⟩ := hs
      cases is_running with
      | true => exact ⟨hdrawings, nofun, hframe, nofun⟩
      | false => exact ⟨hdrawings, nofun, hframe, nofun⟩
    cases early with
    | true => exact hturn.advance rfl rfl (fun _ => rfl) (fun h => h) rfl hturn.ready
    | false => simpa using hturn

theorem shows_of_run (hrun : system.Run s log) : Shows s log :=
  hrun.invariant (I := Shows) ⟨rfl, fun _ => rfl, rfl, nofun⟩
    fun _ _ _ _ _ _ h _ hs => (turns_of_main hs).shows h

/-- Whatever SDL answers and however many turns there are, `main` sets the scale mode and then draws
the pictures `0`, `1`, ..., each with the same calls, in order and without a gap; between two turns
and at the end no picture is unfinished. The pixel moves to the right and comes back on the left,
except when the counter wraps around: then it jumps back before it has reached the right. -/
theorem frames_shown (hrun : system.Run s log) :
    drawings log <+: before (log.countP Call.presents + 1) ∧
      (s.phase = .pollEvent ∨ s.phase = .done EXIT_SUCCESS →
        drawings log = before (log.countP Call.presents)) ∧
      ∀ n, column (n + 1) = if (n + 1) % 2 ^ 32 = 0 then 0 else (column n + 1) % WIDTH := by
  have hdrawings := (shows_of_run hrun).soFar
  refine ⟨hdrawings ▸ drawings_prefix _ _, fun hphase => ?_, column_succ⟩
  rw [hdrawings]
  rcases hphase with hphase | hphase <;> rw [hphase] <;> exact List.append_nil _

/-- Two turns, of which the second brings a key and the request to quit; the first picture cannot be
copied to the window. -/
def twoTurns : List Act :=
  [.ok, .ok, .ok, .ok, .ok, .event none, .ok, .ok, .failed "device lost", .ok, .elapsed true,
    .event (some 0x300), .event (some SDL_EVENT_QUIT), .event none, .ok, .ok, .ok, .ok,
    .elapsed false, .ok, .ok, .ok, .ok]

theorem frames_shown_twoTurns : ∃ s log, system.Run s log ∧ s.phase = .done EXIT_SUCCESS ∧
    drawings log = .scaleMode SDL_SCALEMODE_NEAREST :: (turn 0 ++ turn 1) := by
  obtain ⟨s, log, hrun, hq⟩ := system.exists_run_of_exec (fun _ _ => True) twoTurns
    (fun s log => decide (s.phase = .done EXIT_SUCCESS ∧ log.countP Call.presents = 2))
    (by decide +kernel)
  obtain ⟨hdone, hcount⟩ := of_decide_eq_true hq
  have hdrawings := (frames_shown hrun).2.1 (.inr hdone)
  rw [hcount] at hdrawings
  exact ⟨s, log, hrun, hdone, hdrawings⟩

end Show

end Framebuffer
