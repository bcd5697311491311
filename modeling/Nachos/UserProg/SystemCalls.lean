import Nachos.UserProg.Exception

namespace Nachos.Kernel

open Reply

def advancePC (k : Kernel) : Kernel :=
  ((k.setRegister prevPCReg (k.registers pcReg)).setRegister pcReg (k.registers nextPCReg)).setRegister nextPCReg
    (k.registers nextPCReg + 4)

theorem advancePC_other (k : Kernel) {r : Register} (h : r ∉ [prevPCReg, pcReg, nextPCReg]) :
    k.advancePC.registers r = k.registers r := by
  simp only [List.mem_cons, List.not_mem_nil, or_false, not_or] at h
  simp only [advancePC, setRegister, Function.update_of_ne h.1, Function.update_of_ne h.2.1, Function.update_of_ne h.2.2]

def resultReg : Register := gpReg 2
def arg1Reg : Register := gpReg 4
def arg2Reg : Register := gpReg 5
def arg3Reg : Register := gpReg 6

@[simp] theorem advancePC_arg1Reg (k : Kernel) : k.advancePC.registers arg1Reg = k.registers arg1Reg :=
  k.advancePC_other (by decide)

@[simp] theorem advancePC_arg2Reg (k : Kernel) : k.advancePC.registers arg2Reg = k.registers arg2Reg :=
  k.advancePC_other (by decide)

@[simp] theorem advancePC_arg3Reg (k : Kernel) : k.advancePC.registers arg3Reg = k.registers arg3Reg :=
  k.advancePC_other (by decide)

def scExit (k : Kernel) : Except Fault (Reply Unit) := do
  let s ← k.space
  let bitMap ← k.bitMap.clear s.numPages.toInt
  let k ← deleteSpace { k with bitMap } (some s)
  .ok (.finished k.finish)

def spawn (k : Kernel) (space : Option AddrSpace) (files : Files) : Kernel where
  __ := (k.setProcess k.threadID (some ⟨space, false⟩)).setRegister resultReg (.ofNat 32 k.threadID)
  files := files
  activeThreads := k.activeThreads ++ [k.threadID]
  threadID := k.threadID + 1
  ready := k.ready ++ [k.threadID]

def refuse (k : Kernel) (p : Process) (files : Files) : Kernel where
  __ := (k.setProcess k.current (some { p with killNewChild := false })).setRegister resultReg
    (-.ofNat 32 (k.threadID + 1))
  files := files

def execFile (k : Kernel) (filename : Name) : Except Fault Kernel :=
  match k.files filename with
  | none => .ok k
  | some _ => do
    let (space, files) ← AddrSpace.new k.host k.garbage k.files filename k.threadID
    match k.processes k.current with
    | none => .error .indeterminate
    | some p => if p.killNewChild = false then .ok (k.spawn space files) else .ok (k.refuse p files)

def IdsLeft (k : Kernel) : Prop := k.threadID < 2 ^ 31

def nameSize : Nat := 100

def readName (k : Kernel) (fileAddress : Word) (filename : Name) : Nat → Except Fault (Reply (Option Name))
  -- the copy of the file name; the answer is empty when a read fails and the handler returns. The last argument
  -- counts the characters of `filename` that are left
  | 0 => proceed (k.readMem fileAddress 1) fun r k =>
    match r with
    | none => .ok (.returned none k)
    | some j => if j = 0 then .ok (.returned (some filename) k) else .error .outOfBounds
  | n + 1 => proceed (k.readMem fileAddress 1) fun r k =>
    match r with
    | none => .ok (.returned none k)
    | some j =>
      if j = 0 then .ok (.returned (some filename) k)
      else readName k (fileAddress + 1) (filename ++ [j.setWidth 8]) n

def scExec (k : Kernel) : Except Fault (Reply Unit) :=
  let k := k.advancePC
  proceed (k.readName (k.registers arg1Reg) [] nameSize) fun r k =>
    match r with
    | none => .ok (.returned () k)
    | some filename =>
      -- a name that fills the array has no terminator for `Open` to stop at
      if filename.length < nameSize then do
        let k ← k.execFile filename
        .ok (.returned () k)
      else .error .outOfBounds

def chSize : Nat := 500

def copyIn (k : Kernel) (addr : Word) (ch : List Byte) : Nat → Except Fault (Reply (List Byte))
  -- the loop of `SC_Write`; a read that fails is made again
  | 0 => .ok .running
  | fuel + 1 => proceed (k.readMem (addr + .ofNat 32 ch.length) 1) fun r k =>
    match r with
    | none => copyIn k addr ch fuel
    | some i =>
      if ch.length < chSize then
        if i.setWidth 8 = 0#8 then .ok (.returned ch k) else copyIn k addr (ch ++ [i.setWidth 8]) fuel
      else .error .outOfBounds

def sWrite (k : Kernel) (buffer : List Byte) (id : Int) : Except Fault Kernel :=
  if id = 1 then .ok { k with output := Function.update k.output 1 (k.output 1 ++ buffer) }
  else if id ≥ 2 then do
    assert (k.opened id = true)
    .ok { k with output := Function.update k.output id (k.output id ++ buffer) }
  else .ok k

def scWrite (k : Kernel) (fuel : Nat) : Except Fault (Reply Unit) :=
  let k := k.advancePC
  proceed (k.copyIn (k.registers arg1Reg) [] fuel) fun ch k' =>
    if ch = [] then .ok (.returned () k')
    else do
      let k' ← k'.sWrite ch (k.registers arg3Reg).toInt
      .ok (.returned () k')

def storeBytes (k : Kernel) (addr : Word) (num : Nat) : List Byte → Except Fault (Reply Nat)
  | [] => .ok (.returned num k)
  | b :: rest => proceed (k.writeMem (addr + .ofNat 32 num) 1 (b.signExtend 32)) fun _ k =>
    if b = 0#8 then .ok (.returned num k) else storeBytes k addr (num + 1) rest

def isSpace (b : Byte) : Bool := b = 32#8 || (9#8 ≤ b && b ≤ 13#8)

def readConsole (k : Kernel) (addr : Word) (size : Int) : Except Fault (Reply Nat) :=
  let stream := (k.input 0).dropWhile isSpace
  let word := stream.takeWhile (fun b => !isSpace b)
  let k := { k with input := Function.update k.input 0 (stream.drop word.length) }
  if word = [] then .error .indeterminate
  else if word.length + 1 > size + 10 then .error .outOfBounds
  else
    let text := word.takeWhile (fun b => b != 0#8)
    if text.length > size + 1 then
      if size + 1 < 0 then .error .outOfBounds else k.storeBytes addr 0 (text.take (size + 1).toNat)
    else k.storeBytes addr 0 (text ++ [0#8])

def readFrom (k : Kernel) (addr : Word) (id : Int) (num : Nat) : Nat → Except Fault (Reply Nat)
  | 0 => .ok (.returned num k)
  | n + 1 =>
    match k.input id with
    | [] => .error .assertion
    | b :: rest =>
      proceed (writeMem { k with input := Function.update k.input id rest } (addr + .ofNat 32 num) 1 (b.signExtend 32))
        fun _ k => if b = 0#8 then .ok (.returned num k) else readFrom k addr id (num + 1) n

def sRead (k : Kernel) (addr : Word) (size id : Int) : Except Fault (Reply Nat) :=
  -- `SRead`; the array `buffer[size + 10]` needs a positive length
  if CInt.wrap (size + 10) ≤ 0 then .error .outOfBounds
  else if id = 0 then k.readConsole addr size
  else k.readFrom addr id 0 size.toNat

def scRead (k : Kernel) : Except Fault (Reply Unit) :=
  let k := k.advancePC
  proceed (k.sRead (k.registers arg1Reg) (k.registers arg2Reg).toInt (k.registers arg3Reg).toInt) fun result k =>
    .ok (.returned () (k.setRegister resultReg (.ofNat 32 result)))

end Nachos.Kernel
