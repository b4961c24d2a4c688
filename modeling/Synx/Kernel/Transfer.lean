/-
Reading and writing of `proc/syscall_io.cpp`.
-/

import Synx.Kernel.Files

namespace Synx.Kernel

open Lib Program
open Exec (userTop field)
open Ramfs (ramfs)

def errNotsup : Int := -95

def maxIovecCount : Nat := 1024
def chunkSize : Nat := 128
def newline : UInt8 := 10

/-- What a call that was interrupted by an error returns. -/
def partialResult (count : Nat) (code : Int) : Action Nat :=
  if count ≠ 0 then pure count else fail code

/-! ### Keyboard and console -/

/-- The loop of `sys_read` on the keyboard. -/
def readKeys (buffer count : Nat) : List KeyEvent → Nat → Action (Option Nat)
  | events, readCount =>
    if count ≤ readCount then pure (some readCount)
    else
      match events with
      | [] => pure none
      | event :: rest => do
          modify (fun kernel => { kernel with keyboard := rest })
          if event.pressed = false ∨ event.ascii = 0 then readKeys buffer count rest readCount
          else do
            if ← copyToUser (wrap (buffer + readCount)) [event.ascii] then
              if event.ascii = newline then pure (some (readCount + 1))
              else readKeys buffer count rest (readCount + 1)
            else do
              let result ← partialResult readCount errFault
              pure (some result)

def readKeyboard (buffer count : Nat) : Action (Option Nat) := do
  if ← copyToUser buffer [0] then do
    let kernel ← gets id
    readKeys buffer count kernel.keyboard 0
  else fail errFault

def printBytes (bytes : List UInt8) : Action Unit :=
  modify (fun kernel => { kernel with console := kernel.console ++ bytes })

/-! ### Files -/

/-- `vfs::read` into the buffer `chunk`. -/
def readChunk (file amount : Nat) : Action (Int × List UInt8) := do
  let (result, bytes) ← onFs (Vfs.readFile ramfs file amount)
  let chunk ← lift (putBuffer (freshBuffer chunkSize) 0 bytes)
  pure (result, chunk)

/-- The loop of `sys_read` on a file.  Every round reads at least one byte. -/
def readChunks (file buffer count : Nat) : Nat → Nat → Action Nat
  | 0, readCount => pure readCount
  | rounds + 1, readCount =>
    if count ≤ readCount then pure readCount
    else do
      let amount := min chunkSize (count - readCount)
      let (result, chunk) ← readChunk file amount
      if result < 0 then partialResult readCount result
      else if result = 0 then pure readCount
      else do
        let bytes ← lift (getBuffer chunk 0 result.toNat)
        if ← copyToUser (wrap (buffer + readCount)) bytes then
          if result.toNat < amount then pure (readCount + result.toNat)
          else readChunks file buffer count rounds (readCount + result.toNat)
        else partialResult readCount errFault

def sysRead (fd buffer count : Nat) : Action (Option Nat) := do
  let kernel ← gets id
  if fd = 0 then
    if count = 0 then pure (some 0)
    else if maxIoSize < count then fail errInval
    else readKeyboard buffer count
  else if fd < 3 then fail errBadf
  else do
    let file ← lift (openSlot kernel fd)
    if count = 0 then pure (some 0)
    else if maxIoSize < count then fail errInval
    else do
      let result ← readChunks file buffer count count 0
      pure (some result)

/-- The bytes of user memory in the buffer `chunk`. -/
def fetchChunk (address amount : Nat) : Action (Option (List UInt8)) := do
  let kernel ← gets id
  match copyFromUser kernel.mem kernel.cr3 address amount with
  | none => pure none
  | some bytes => do
      let chunk ← lift (putBuffer (freshBuffer chunkSize) 0 bytes)
      let bytes ← lift (getBuffer chunk 0 amount)
      pure (some bytes)

/-- The loop of `sys_write`.  Without a file the bytes go to the console. -/
def writeChunks (file : Option Nat) (buffer count : Nat) : Nat → Nat → Action Nat
  | 0, written => pure written
  | rounds + 1, written =>
    if count ≤ written then pure written
    else do
      let amount := min chunkSize (count - written)
      match ← fetchChunk (wrap (buffer + written)) amount with
      | none => partialResult written errFault
      | some bytes =>
        match file with
        | none => do
            printBytes bytes
            writeChunks file buffer count rounds (written + amount)
        | some id => do
            let result ← onFs (Vfs.writeFile ramfs id bytes)
            if result < 0 then partialResult written result
            else if result = 0 then pure written
            else if result.toNat < amount then pure (written + result.toNat)
            else writeChunks file buffer count rounds (written + result.toNat)

def sysWrite (fd buffer count : Nat) : Action Nat := do
  let kernel ← gets id
  if fd = 0 then fail errBadf
  else if fd < 3 then
    if count = 0 then pure 0
    else if maxIoSize < count then fail errInval
    else writeChunks none buffer count count 0
  else do
    let file ← lift (openSlot kernel fd)
    if count = 0 then pure 0
    else if maxIoSize < count then fail errInval
    else writeChunks (some file) buffer count count 0

/-! ### Vectors of buffers -/

/-- One transfer of `sys_vector_io`. -/
def transfer (fd : Nat) (writeToFile : Bool) (buffer count : Nat) : Action (Option Nat) :=
  if writeToFile then do
    let result ← sysWrite fd buffer count
    pure (some result)
  else sysRead fd buffer count

/-- An entry of the vector, if it can be read: base and length. -/
def userIovec (kernel : State) (userIov index : Nat) : Option (Nat × Nat) :=
  let offset := index * 16
  if userTop - userIov < offset ∨ userTop - userIov - offset < 16 then none
  else (copyFromUser kernel.mem kernel.cr3 (userIov + offset) 16).map
    (fun bytes => (field bytes 0 8, field bytes 8 8))

def transferVectors (fd userIov : Nat) (writeToFile : Bool) (index : Nat) :
    Nat → Nat → Action (Option Nat)
  | 0, total => pure (some total)
  | missing + 1, total => do
      let kernel ← gets id
      match userIovec kernel userIov index with
      | none => do
          let result ← partialResult total errFault
          pure (some result)
      | some (base, length) =>
        if maxIoSize - total < length then do
          let result ← partialResult total errInval
          pure (some result)
        else if length = 0 then transferVectors fd userIov writeToFile (index + 1) missing total
        else do
          match ← attempt (transfer fd writeToFile base length) with
          | .error code => do
              let result ← partialResult total code
              pure (some result)
          | .ok none => pure none
          | .ok (some count) =>
            if count < length then pure (some (total + count))
            else transferVectors fd userIov writeToFile (index + 1) missing (total + count)

def sysVectorIo (fd userIov iovCount : Nat) (writeToFile : Bool) : Action (Option Nat) := do
  if maxIovecCount < iovCount then fail errInval
  else if userTop ≤ userIov ∧ iovCount ≠ 0 then fail errFault
  else do
    let _ ← transfer fd writeToFile 0 0
    if iovCount = 0 then pure (some 0)
    else transferVectors fd userIov writeToFile 0 iovCount 0

/-! ### The clock -/

/-- `KernelTimespec`. -/
def timespecBytes (seconds nanoseconds : Nat) : List UInt8 :=
  Memory.numberBytes seconds 8 ++ Memory.numberBytes nanoseconds 8

def sysClockGettime (clockId userTime : Nat) (getResolution : Bool) : Action Nat := do
  if clockId ≠ 1 then fail errNotsup
  else if getResolution ∧ userTime = 0 then pure 0
  else do
    let kernel ← gets id
    let value :=
      if getResolution then timespecBytes 0 1000
      else timespecBytes (kernel.uptimeUs / 1000000) (kernel.uptimeUs % 1000000 * 1000)
    if ← copyToUser userTime value then pure 0 else fail errFault

end Synx.Kernel
