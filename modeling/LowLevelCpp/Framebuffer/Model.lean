import LowLevelCpp.Foundations.Nested
import Mathlib.Logic.Function.Basic
import Mathlib.Data.List.FinRange

/-!
The framebuffer of `sdl-framebuffer`: an array of pixels that `main` fills, hands to SDL and shows,
once in each turn of its loop, until it is asked to quit. Every call to SDL may fail; `main` only
looks at the answers of those that create something.
-/
namespace Framebuffer
open Foundations Foundations.System

def WIDTH : ℕ := 320

def HEIGHT : ℕ := 200

/-- `uint32_t framebuffer[WIDTH * HEIGHT]` -/
abbrev Pixels := Fin (WIDTH * HEIGHT) → BitVec 32

section Drawing
variable {x y : ℤ}

/-- Where `put_pixel` returns without writing. -/
def Outside (x y : ℤ) : Prop := x < 0 ∨ x ≥ WIDTH ∨ y < 0 ∨ y ≥ HEIGHT

instance (x y : ℤ) : Decidable (Outside x y) := inferInstanceAs (Decidable (_ ∨ _))

theorem index_lt (h : ¬ Outside x y) : (WIDTH * y + x).toNat < WIDTH * HEIGHT := by
  simp only [Outside, WIDTH, HEIGHT] at h ⊢
  omega

end Drawing

def put_pixel (framebuffer : Pixels) (x y : ℤ) (color : BitVec 32) : Pixels :=
  if h : Outside x y then framebuffer
  else Function.update framebuffer ⟨(WIDTH * y + x).toNat, index_lt h⟩ color

def clear (framebuffer : Pixels) (color : BitVec 32) : Pixels :=
  (List.finRange (WIDTH * HEIGHT)).foldl (fun framebuffer i => Function.update framebuffer i color)
    framebuffer

inductive Resource where
  | video
  | window
  | renderer
  | texture
  deriving DecidableEq

/-- The calls that create something, with what `main` asks for. -/
inductive Creation where
  | video (flags : BitVec 32)
  | window (title : String) (w h : ℕ) (flags : BitVec 64)
  | renderer (name : Option String)
  | texture (format : BitVec 32) (access w h : ℕ)

/-- The calls to SDL and the output to `stderr`. The calls that draw carry their answers, and a call
that creates something is an event if it succeeds. Where a call takes a rectangle `main` passes a
null pointer, which stands for all of the texture or window. -/
inductive Call where
  | created (c : Creation)
  | setTextureScaleMode (mode : ℕ) (ok : Bool)
  | pollEvent (event : Option (BitVec 32))
  | updateTexture (pixels : Pixels) (pitch : ℕ) (ok : Bool)
  | renderClear (ok : Bool)
  | renderTexture (ok : Bool)
  | renderPresent (ok : Bool)
  | delay
  | destroyed (r : Resource)
  | printed (line : String)

/-- Where `main` stands, before each of its calls. The branches for what cannot be created release
in one order with the end of `main`, and share its phases; `status` is what is then returned. -/
inductive Phase where
  | init
  | createWindow
  | createRenderer
  | createTexture
  | setTextureScaleMode
  | pollEvent
  | updateTexture
  | renderClear
  | renderTexture
  | renderPresent
  | delay
  | destroyTexture
  | destroyRenderer (status : ℕ)
  | destroyWindow (status : ℕ)
  | quit (status : ℕ)
  | done (status : ℕ)
  deriving DecidableEq

structure State where
  phase : Phase
  framebuffer : Pixels
  is_running : Bool
  frame : BitVec 32

def SDL_INIT_VIDEO : BitVec 32 := 0x20

def SDL_PIXELFORMAT_XRGB8888 : BitVec 32 := 0x16161804

def SDL_TEXTUREACCESS_STREAMING : ℕ := 1

def SDL_SCALEMODE_NEAREST : ℕ := 0

def SDL_EVENT_QUIT : BitVec 32 := 0x100

def EXIT_SUCCESS : ℕ := 0

def EXIT_FAILURE : ℕ := 1

/-- The answers that `main` gets: whether a call succeeds, the next event in the queue by its type,
and whether the turn has taken less time than a frame. -/
inductive Act where
  | ok
  | failed (error : String)
  | event (event : Option (BitVec 32))
  | elapsed (early : Bool)

/-- A call that creates something. If it fails, `main` says so and releases what it has. -/
def create (s : State) (c : Creation) (name : String) (next cleanup : Phase) :
    Act → Option (State × List Call)
  | .ok => some ({ s with phase := next }, [.created c])
  | .failed error =>
    some ({ s with phase := cleanup }, [.printed (name ++ " failed: " ++ error ++ "\n")])
  | .event _ | .elapsed _ => none

/-- A call whose answer is not looked at. -/
def draw (s : State) (call : Bool → Call) (next : Phase) : Act → Option (State × List Call)
  | .ok => some ({ s with phase := next }, [call true])
  | .failed _ => some ({ s with phase := next }, [call false])
  | .event _ | .elapsed _ => none

/-- A call that releases something; these do not answer. -/
def destroy (s : State) (r : Resource) (next : Phase) : Act → Option (State × List Call)
  | .ok => some ({ s with phase := next }, [.destroyed r])
  | .failed _ | .event _ | .elapsed _ => none

/-- What is drawn in a turn, between the last event and the first call to SDL. -/
def State.paint (s : State) : Pixels :=
  put_pixel (clear s.framebuffer 0x2A2A2A) (s.frame % 320).toNat (HEIGHT / 2 : ℕ) 0x00FF00

def main (s : State) (act : Act) : Option (State × List Call) :=
  match s.phase with
  | .init => create s (.video SDL_INIT_VIDEO) "SDL init" .createWindow (.done EXIT_FAILURE) act
  | .createWindow =>
    create s (.window "SDL Framebuffer" (WIDTH * 4) (HEIGHT * 4) 0) "SDL_CreateWindow"
      .createRenderer (.quit EXIT_FAILURE) act
  | .createRenderer =>
    create s (.renderer none) "SDL_CreateRenderer" .createTexture (.destroyWindow EXIT_FAILURE) act
  | .createTexture =>
    create s (.texture SDL_PIXELFORMAT_XRGB8888 SDL_TEXTUREACCESS_STREAMING WIDTH HEIGHT)
      "SDL_CreateTexture" .setTextureScaleMode (.destroyRenderer EXIT_FAILURE) act
  | .setTextureScaleMode => draw s (.setTextureScaleMode SDL_SCALEMODE_NEAREST) .pollEvent act
  | .pollEvent =>
    match act with
    | .event (some type) =>
      let is_running := if type = SDL_EVENT_QUIT then false else s.is_running
      some ({ s with is_running }, [.pollEvent (some type)])
    | .event none =>
      some ({ s with phase := .updateTexture, framebuffer := s.paint }, [.pollEvent none])
    | .ok | .failed _ | .elapsed _ => none
  | .updateTexture => draw s (.updateTexture s.framebuffer (WIDTH * 4)) .renderClear act
  | .renderClear => draw s .renderClear .renderTexture act
  | .renderTexture => draw s .renderTexture .renderPresent act
  | .renderPresent => draw s .renderPresent .delay act
  | .delay =>
    match act with
    | .elapsed early =>
      let next := if s.is_running then .pollEvent else .destroyTexture
      some ({ s with phase := next, frame := s.frame + 1 }, if early then [.delay] else [])
    | .ok | .failed _ | .event _ => none
  | .destroyTexture => destroy s .texture (.destroyRenderer EXIT_SUCCESS) act
  | .destroyRenderer status => destroy s .renderer (.destroyWindow status) act
  | .destroyWindow status => destroy s .window (.quit status) act
  | .quit status => destroy s .video (.done status) act
  | .done _ => none

/-- `main` starts with the array that the program starts with. -/
def system : System State Act Call where
  init := ⟨.init, fun _ => 0, true, 0⟩
  step := main

end Framebuffer
