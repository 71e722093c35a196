/-!
# The machine

Addresses and sizes of the machine for which assembly text is written. What lies in memory lies there without
gaps: the terminal and its cursor, two pictures for the display, the stack, and then the program.
-/

namespace TreeCompiler.Machine

def terminalWidth : Nat := 80
def terminalHeight : Nat := 25
def displayWidth : Nat := 480
def displayHeight : Nat := 360

/-- A character of the terminal, a point of the display and a number take a word each. -/
def wordBytes : Nat := 4

def terminalBufferStart : Nat := 0
def terminalBufferSize : Nat := terminalWidth * terminalHeight * wordBytes
def terminalBufferEnd : Nat := terminalBufferStart + terminalBufferSize
def cursorPointer : Nat := terminalBufferEnd
def cursorMode : Nat := cursorPointer + wordBytes
def cursorBlinking : Nat := 0
def cursorVisible : Nat := 1
def cursorInvisible : Nat := 2

def framebufferSize : Nat := displayWidth * displayHeight * wordBytes
def firstFramebufferStart : Nat := cursorMode + wordBytes
def secondFramebufferStart : Nat := firstFramebufferStart + framebufferSize

def stackStart : Nat := secondFramebufferStart + framebufferSize
def stackSize : Nat := 524288

def entryPoint : Nat := stackStart + stackSize

/-- Registers for general use, numbered from zero. -/
def registerCount : Nat := 256

/-- All of the above in the order in which the machine's description lists them. -/
def description : List Nat :=
  [entryPoint, stackStart, firstFramebufferStart, secondFramebufferStart, cursorMode,
   cursorPointer, terminalBufferStart, terminalBufferEnd, cursorBlinking, cursorVisible,
   cursorInvisible, displayWidth, displayHeight, terminalWidth, terminalHeight,
   terminalBufferSize, framebufferSize, stackSize, registerCount]

end TreeCompiler.Machine
