import Chore.Machine.Host
import Chore.Text.Utf8

/-!
# Tools and output

A world is usually made of two independent parts: the tools that answer requests, with a state of
their own, and the output. An `Output` may have limited room; a text that does not fit is written
as far as it does and then refused.
-/

set_option autoImplicit false

namespace Chore

/-- Printed output, and how many more bytes it takes if that is limited. -/
structure Output where
  bytes : ByteArray := .empty
  room? : Option Nat := none

namespace Output

/-- Writes a text, or as much of it as there is room for. -/
def write (text : String) (o : Output) : Except String Unit × Output :=
  let data := text.toUTF8
  match o.room? with
  | none => (.ok (), { o with bytes := o.bytes ++ data })
  | some room =>
    if data.size ≤ room then (.ok (), { bytes := o.bytes ++ data, room? := some (room - data.size) })
    else (.error "output closed", { bytes := o.bytes ++ data.extract 0 room, room? := some 0 })

/-- The output as text. -/
def text (o : Output) : String :=
  Text.decodeBytes o.bytes

end Output

/-- Whoever answers requests, on a state `σ`. -/
structure Tools (σ : Type) where
  reply : (r : Request) → σ → r.Reply × σ
  notes : Request → σ → List Note
  here? : σ → Option ByteArray

/-- Tools and output side by side. -/
structure World (σ : Type) where
  tools : σ
  output : Output := {}

/-- The host made of some tools and an output. -/
def Tools.host {σ : Type} (t : Tools σ) : Host (World σ) where
  reply r w :=
    let (a, tools) := t.reply r w.tools
    (a, { w with tools })
  notes r w := t.notes r w.tools
  here? w := t.here? w.tools
  write text w :=
    let (a, output) := w.output.write text
    (a, { w with output })

end Chore
