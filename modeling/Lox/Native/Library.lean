import Lox.Native

/-!
# A library of host functions

`clock` is what every program is given. The others are building blocks from which a host makes
functions: answers made from the arguments, and calls of arguments.

## Main definitions

* `Native.clock`, `Native.standard`: the host functions of every program.
* `Action.first`, `Action.count`, `Action.join`: answers made from the arguments.
* `Action.callWith`, `Action.call`, `Action.callTwice`: calls of the first argument, with values of
  the host's own or with the other arguments.
-/

namespace Lox

namespace Action

/-- Answers with the first argument. -/
def first (arguments : List View) : Action :=
  if arguments.isEmpty then crash .missingArgument else done (.given 0)

/-- Answers with the number of arguments. -/
def count (arguments : List View) : Action :=
  done (.number arguments.length.toFloat)

/-- Answers with the texts of the arguments, separated by bars. -/
def join (arguments : List View) : Action :=
  done (.string ("|".intercalate (arguments.map View.text)))

/-- All arguments but the first. -/
def others (arguments : List View) : List Offer :=
  ((List.range arguments.length).drop 1).map .given

/-- Calls the first argument and answers with what that answers. -/
def callWith (offers : List Offer) (arguments : List View) : Action :=
  if arguments.isEmpty then crash .missingArgument
  else invoke 0 offers fun _ => done (.given arguments.length)

/-- Calls the first argument with the other ones. -/
def call (arguments : List View) : Action := callWith (others arguments) arguments

/-- Calls the first argument with the other ones twice and answers with the second answer. -/
def callTwice (arguments : List View) : Action :=
  if arguments.isEmpty then crash .missingArgument
  else
    invoke 0 (others arguments) fun _ =>
      invoke 0 (others arguments) fun _ => done (.given (arguments.length + 1))

end Action

namespace Native

/-- The time in seconds at each reading, which is noted down. How many notes there are tells one
reading from the next. -/
def clock (readings : Nat → Float) : Native :=
  ⟨"clock", 0, fun _ => .consult fun notes =>
    let now := readings notes.length
    .note (.number now) (.done (.number now))⟩

/-- The host functions of every program, where the clock stands still. -/
def standard (now : Float) : List Native := [clock fun _ => now]

end Native

end Lox
