import Nachos.World

/-! The console: `Console` of `machine/console.cc` and `SynchConsole` of `userprog/synchconsole.cc`.
The procedures take what follows the call as their last argument. -/

namespace Nachos

namespace Console

/-- The bytes that `Console::PutChar` writes for a character. -/
def putBytes (utf8 : Bool) (ch : Word) : List Byte :=
  if ch.toInt < 0x80 ∨ utf8 = false then [ch.setWidth 8]
  else if ch.toInt < 0x100 then
    [(((ch &&& 0xc0#32) >>> 6) ||| 0xc0#32).setWidth 8, ((ch &&& 0x3f#32) ||| 0x80#32).setWidth 8]
  else []

/-- `Console::PutChar` after its assertion. -/
def putChar (ch : Word) (c : Console) : Console :=
  { c with
    output := c.output ++ putBytes c.utf8 ch
    putBusy := true
    writesPending := c.writesPending + 1 }

/-- `Console::GetChar`. -/
def getChar (c : Console) : Console × Word := ({ c with incoming := eof }, c.incoming)

/-- `Console::WriteDone`, up to the call of the handler. -/
def writeDone (c : Console) : Console :=
  { c with putBusy := false, writesPending := c.writesPending - 1 }

/-- `Console::CheckCharAvail`, where `ready` is the answer of `PollFile`; also whether it calls the
handler. A dropped byte of a UTF-8 sequence leaves no poll scheduled. -/
def checkCharAvail (ready : Bool) (c : Console) : Console × Bool :=
  if c.incoming ≠ eof ∨ ready = false then (c, false)
  else match c.input with
    | [] => ({ c with incoming := eof }, true)
    | b :: rest =>
        if c.utf8 = false ∨ b &&& 0x80#8 = 0 then
          ({ c with incoming := b.setWidth 32, input := rest }, true)
        else if b &&& 0xe0#8 ≠ 0xc0#8 ∨ b &&& 0x1c#8 ≠ 0 then
          ({ c with input := rest, pollPending := false }, false)
        else match rest with
          | [] => ({ c with incoming := eof, input := [] }, true)
          | d :: rest =>
              if d &&& 0xc0#8 ≠ 0x80#8 then ({ c with input := rest, pollPending := false }, false)
              else ({ c with
                incoming := (((b &&& 0x03#8).setWidth 32) <<< 6) ||| d.setWidth 32
                input := rest }, true)

/-- A poll does nothing to the write side. -/
theorem checkCharAvail_write (ready : Bool) (c : Console) :
    ((c.checkCharAvail ready).1.putBusy, (c.checkCharAvail ready).1.writesPending,
      (c.checkCharAvail ready).1.utf8, (c.checkCharAvail ready).1.output) =
        (c.putBusy, c.writesPending, c.utf8, c.output) := by
  unfold checkCharAvail
  repeat' split
  all_goals rfl

end Console

section Procedures

variable {ρ : Type} (k : Program Sem World ρ Observation)

/-- A call of `Console::PutChar`. -/
def consolePutChar (ch : Word) : Program Sem World ρ Observation :=
  update (fun _ world => if world.console.putBusy then (world, true)
      else ({ world with console := world.console.putChar ch }, false))
    fun busy => if busy then .abort else k

/-- `SynchConsole::SynchPutChar`. -/
def synchPutChar (ch : Word) : Program Sem World ρ Observation :=
  .semP .writeLock <| consolePutChar (.semP .writeDone <| .semV .writeLock k) ch

/-- The loop of `SynchConsole::SynchPutString` and the release of the lock, on the rest of the string.
A string ends at its first null character; the list is followed by one. -/
def putStringLoop : List Byte → Program Sem World ρ Observation
  | [] => .semV .writeLock k
  | ch :: rest =>
      if ch = 0 then .semV .writeLock k
      else consolePutChar (.semP .writeDone <| putStringLoop rest) (ch.signExtend 32)

/-- `SynchConsole::SynchPutString`. -/
def synchPutString (s : List Byte) : Program Sem World ρ Observation :=
  .semP .writeLock <| putStringLoop k s

variable (kc : Word → Program Sem World ρ Observation) (ks : List Byte → Program Sem World ρ Observation)

/-- A call of `Console::GetChar`. -/
def consoleGetChar : Program Sem World ρ Observation :=
  .act (fun _ world priv =>
      ({ world with console := world.console.getChar.1 }, priv, [.got world.console.getChar.2]))
    fun _ world _ => kc world.console.getChar.2

/-- `SynchConsole::SynchGetChar`. -/
def synchGetChar : Program Sem World ρ Observation :=
  .semP .readLock <| .semP .readAvail <| consoleGetChar fun c => .semV .readLock <| kc c

/-- The loop of `SynchConsole::SynchGetString` and what follows it, with `n` and the characters
stored so far; a character `'\n'` ends the loop. -/
def getStringLoop : Nat → List Byte → Program Sem World ρ Observation
  | n + 2, s => .semP .readAvail <| consoleGetChar fun c =>
      let stored := s ++ [c.setWidth 8]
      if (c.setWidth 8 : Byte) = 10 then .semV .readLock <| ks stored
      else getStringLoop (n + 1) stored
  | _, s => .semV .readLock <| ks s

/-- `SynchConsole::SynchGetString`; `ks` gets the string without the null character. -/
def synchGetString (n : Int) : Program Sem World ρ Observation :=
  .semP .readLock <| getStringLoop ks n.toNat []

end Procedures

/-- The interrupts of the console: a poll, with the answer of `PollFile`, and a finished write. -/
inductive ConsoleInterrupt where
  | readPoll (ready : Bool)
  | writeDone

/-- The handlers `ConsoleReadPoll` and `ConsoleWriteDone`, for an interrupt that is scheduled, and the
semaphore that `ReadAvailHandler` or `WriteDoneHandler` releases. -/
def consoleHandler : ConsoleInterrupt → World → Option (World × List Sem)
  | .readPoll ready, world =>
      if world.console.pollPending then
        some ({ world with console := (world.console.checkCharAvail ready).1 },
          if (world.console.checkCharAvail ready).2 then [.readAvail] else [])
      else none
  | .writeDone, world =>
      if 0 < world.console.writesPending then
        some ({ world with console := world.console.writeDone }, [.writeDone])
      else none

/-- The calls of a client of the console. -/
inductive ConsoleCall where
  | putChar (ch : Word)
  | putString (s : List Byte)
  | getChar
  | getString (n : Int)
  /-- The thread computes until the next tick. -/
  | compute
  | fork
  | exit

abbrev ConsoleState := Interleaving.State Sem ConsoleCall World Unit Observation

/-- Any number of threads that use one `SynchConsole`. -/
def consoleSystem (utf8 : Bool) (input : List Byte) (table : ThreadTable) :
    ThreadSystem Sem ConsoleCall ConsoleInterrupt World Unit Observation where
  menu
    | .putChar ch => synchPutChar .ret ch
    | .putString s => synchPutString .ret s
    | .getChar => synchGetChar fun _ => .ret
    | .getString n => synchGetString (fun _ => .ret) n
    | .compute => .tick .ret
    | .fork => .newThread fun
        | none => .ret
        | some t => .start t .ret .ret
    | .exit => .finish
  handler := consoleHandler
  initialValue
    | .readAvail => 0
    | .writeDone => 0
    | .readLock => 1
    | .writeLock => 1
    | .threadLock => 1
  initialShared := ⟨.new utf8 input, table, fun _ => 0⟩
  initialPrivate := ()
  construct := id
  main := 1

end Nachos
