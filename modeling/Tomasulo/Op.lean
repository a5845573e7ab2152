import Tomasulo.Digits
import Tomasulo.Pool

/-!
# Op — decoder flag words and the classes they fall into

A decoder describes an instruction by a word of flag bits (`OpWord`); those that no class depends on
have no name here.  The scheduler looks at one thing only: the `OpClass` the word falls into
(`OpWord.class?`).  The class decides which `Pool` the instruction waits in and whether it publishes
a result on the bus.
-/

namespace Tomasulo

/-! ## Flag words -/

/-- A decoder's flag word. -/
structure OpWord where
  bits : UInt32
deriving DecidableEq, Repr

namespace OpWord

instance : OrOp OpWord := ⟨fun a b => ⟨a.bits ||| b.bits⟩⟩

/-- Some flag is set in both words. -/
def meets (a b : OpWord) : Bool :=
  a.bits &&& b.bits != 0

/-- Integer computation. -/
def intComp : OpWord := ⟨0x1⟩

/-- Floating-point computation. -/
def fpComp : OpWord := ⟨0x2⟩

/-- Control transfer. -/
def control : OpWord := ⟨0x4⟩

/-- Unconditional control transfer. -/
def unconditional : OpWord := ⟨0x8⟩

/-- Conditional control transfer. -/
def conditional : OpWord := ⟨0x10⟩

/-- Memory access. -/
def memory : OpWord := ⟨0x20⟩

/-- Memory read. -/
def load : OpWord := ⟨0x40⟩

/-- Memory write. -/
def store : OpWord := ⟨0x80⟩

/-- Register plus constant addressing. -/
def displaced : OpWord := ⟨0x100⟩

/-- System call or break. -/
def trap : OpWord := ⟨0x800⟩

/-- Direct jump. -/
def directJump : OpWord := ⟨0x2000⟩

/-- Function call. -/
def call : OpWord := ⟨0x8000⟩

/-- The word as messages write it. -/
def text (w : OpWord) : String :=
  hex w.bits.toNat

end OpWord

/-! ## Classes -/

/-- What the scheduler distinguishes among instructions. -/
inductive OpClass where
  | load
  | store
  | int
  | fp
  | jump
  | branch
  | trap
deriving DecidableEq, Repr

namespace OpClass

/-- Every class. -/
def all : List OpClass := [.load, .store, .int, .fp, .jump, .branch, .trap]

/-- The class as logs and tables write it. -/
def label : OpClass → String
  | .load => "load"
  | .store => "store"
  | .int => "int"
  | .fp => "fp"
  | .jump => "jump"
  | .branch => "branch"
  | .trap => "trap"

/-- The word a decoder reports for a plain member of the class. -/
def word : OpClass → OpWord
  | .load => OpWord.memory ||| OpWord.load ||| OpWord.displaced
  | .store => OpWord.memory ||| OpWord.store ||| OpWord.displaced
  | .int => OpWord.intComp
  | .fp => OpWord.fpComp
  | .jump => OpWord.control ||| OpWord.unconditional ||| OpWord.directJump
  | .branch => OpWord.control ||| OpWord.conditional ||| OpWord.directJump
  | .trap => OpWord.trap

/-- Jumps and branches leave the fetch queue without a station. -/
def isControl : OpClass → Bool
  | .jump | .branch => true
  | _ => false

/-- Classes whose result is published on the bus. -/
def broadcasts : OpClass → Bool
  | .load | .int | .fp => true
  | _ => false

/-- The pool a class waits and runs in; control and traps use none. -/
def pool : OpClass → Option Pool
  | .load | .store | .int => some .int
  | .fp => some .fp
  | .jump | .branch | .trap => none

@[simp] theorem mem_all (c : OpClass) : c ∈ all := by
  cases c <;> simp [all]

/-- A publishing class has a pool. -/
theorem isSome_pool_of_broadcasts {c : OpClass} (h : c.broadcasts = true) :
    c.pool.isSome = true := by
  cases c <;> simp_all [broadcasts, pool]

end OpClass

namespace OpWord

/-- Which flags make which class, the strongest first: a trap is a trap whatever else is set, a call
is a jump, and memory access outranks the computation flags that some decoders set beside it. -/
def precedence : List (OpWord × OpClass) :=
  [(trap, .trap), (unconditional ||| call, .jump), (conditional, .branch), (store, .store),
   (load, .load), (fpComp, .fp), (intComp, .int)]

/-- **The class of a word**: the first rule of `precedence` that it meets, if any. -/
def class? (w : OpWord) : Option OpClass :=
  (precedence.find? fun rule => w.meets rule.1).map (·.2)

/-- The word of a class falls into that class. -/
@[simp] theorem class?_word (c : OpClass) : c.word.class? = some c := by
  cases c <;> decide

end OpWord

end Tomasulo
