import HiveRK.Machine.Memory

/-!
# The interrupt module

`bees/interrupt/isr.asm` has one stub for each vector, `bees/interrupt/itr.c` the descriptor
table whose gates lead to them and the table of registered handlers. The linker's choice of
the stubs' offsets is a parameter.
-/

namespace HiveRK.Interrupt

open Machine

/-! ### The stubs of `isr.asm` -/

inductive Label where
  | isr (n : Nat)
  | irq (n : Nat)
deriving DecidableEq, Repr

/-- The macros that make a stub. -/
inductive Stub where
  | ISR_NOERR (n : Nat)
  | ISR_ERR (n : Nat)
  | IRQ (n vector : Nat)
deriving DecidableEq, Repr

def Stub.label : Stub → Label
  | .ISR_NOERR n => .isr n
  | .ISR_ERR n => .isr n
  | .IRQ n _ => .irq n

/-- What the stub pushes before it jumps to `isr_common_stub`, in the order of the pushes. -/
def Stub.pushes : Stub → List Nat
  | .ISR_NOERR n => [0, n]
  | .ISR_ERR n => [n]
  | .IRQ _ vector => [0, vector]

/-- The number on top of the stack when the stub jumps. -/
def Stub.vector : Stub → Nat
  | .ISR_NOERR n => n
  | .ISR_ERR n => n
  | .IRQ _ vector => vector

def stubs : List Stub :=
  [.ISR_NOERR 0, .ISR_NOERR 1, .ISR_NOERR 2, .ISR_NOERR 3, .ISR_NOERR 4, .ISR_NOERR 5, .ISR_NOERR 6,
    .ISR_NOERR 7, .ISR_ERR 8, .ISR_NOERR 9, .ISR_ERR 10, .ISR_ERR 11, .ISR_ERR 12, .ISR_ERR 13,
    .ISR_ERR 14, .ISR_NOERR 15, .ISR_NOERR 16, .ISR_ERR 17, .ISR_NOERR 18, .ISR_NOERR 19,
    .ISR_NOERR 20, .ISR_NOERR 21, .ISR_NOERR 22, .ISR_NOERR 23, .ISR_NOERR 24, .ISR_NOERR 25,
    .ISR_NOERR 26, .ISR_NOERR 27, .ISR_NOERR 28, .ISR_NOERR 29, .ISR_NOERR 30, .ISR_NOERR 31,
    .IRQ 0 32, .IRQ 1 33, .IRQ 2 34, .IRQ 3 35, .IRQ 4 36, .IRQ 5 37, .IRQ 6 38, .IRQ 7 39,
    .IRQ 8 40, .IRQ 9 41, .IRQ 10 42, .IRQ 11 43, .IRQ 12 44, .IRQ 13 45, .IRQ 14 46, .IRQ 15 47,
    .ISR_NOERR 48, .ISR_NOERR 49, .ISR_NOERR 50, .ISR_NOERR 51, .ISR_NOERR 52, .ISR_NOERR 53,
    .ISR_NOERR 54, .ISR_NOERR 55, .ISR_NOERR 56, .ISR_NOERR 57, .ISR_NOERR 58, .ISR_NOERR 59,
    .ISR_NOERR 60, .ISR_NOERR 61, .ISR_NOERR 62, .ISR_NOERR 63, .ISR_NOERR 64, .ISR_NOERR 65,
    .ISR_NOERR 66, .ISR_NOERR 67, .ISR_NOERR 68, .ISR_NOERR 69, .ISR_NOERR 70, .ISR_NOERR 71,
    .ISR_NOERR 72, .ISR_NOERR 73, .ISR_NOERR 74, .ISR_NOERR 75, .ISR_NOERR 76, .ISR_NOERR 77,
    .ISR_NOERR 78, .ISR_NOERR 79, .ISR_NOERR 80, .ISR_NOERR 81, .ISR_NOERR 82, .ISR_NOERR 83,
    .ISR_NOERR 84, .ISR_NOERR 85, .ISR_NOERR 86, .ISR_NOERR 87, .ISR_NOERR 88, .ISR_NOERR 89,
    .ISR_NOERR 90, .ISR_NOERR 91, .ISR_NOERR 92, .ISR_NOERR 93, .ISR_NOERR 94, .ISR_NOERR 95,
    .ISR_NOERR 96, .ISR_NOERR 97, .ISR_NOERR 98, .ISR_NOERR 99, .ISR_NOERR 100, .ISR_NOERR 101,
    .ISR_NOERR 102, .ISR_NOERR 103, .ISR_NOERR 104, .ISR_NOERR 105, .ISR_NOERR 106, .ISR_NOERR 107,
    .ISR_NOERR 108, .ISR_NOERR 109, .ISR_NOERR 110, .ISR_NOERR 111, .ISR_NOERR 112, .ISR_NOERR 113,
    .ISR_NOERR 114, .ISR_NOERR 115, .ISR_NOERR 116, .ISR_NOERR 117, .ISR_NOERR 118, .ISR_NOERR 119,
    .ISR_NOERR 120, .ISR_NOERR 121, .ISR_NOERR 122, .ISR_NOERR 123, .ISR_NOERR 124, .ISR_NOERR 125,
    .ISR_NOERR 126, .ISR_NOERR 127, .ISR_NOERR 128, .ISR_NOERR 129, .ISR_NOERR 130, .ISR_NOERR 131,
    .ISR_NOERR 132, .ISR_NOERR 133, .ISR_NOERR 134, .ISR_NOERR 135, .ISR_NOERR 136, .ISR_NOERR 137,
    .ISR_NOERR 138, .ISR_NOERR 139, .ISR_NOERR 140, .ISR_NOERR 141, .ISR_NOERR 142, .ISR_NOERR 143,
    .ISR_NOERR 144, .ISR_NOERR 145, .ISR_NOERR 146, .ISR_NOERR 147, .ISR_NOERR 148, .ISR_NOERR 149,
    .ISR_NOERR 150, .ISR_NOERR 151, .ISR_NOERR 152, .ISR_NOERR 153, .ISR_NOERR 154, .ISR_NOERR 155,
    .ISR_NOERR 156, .ISR_NOERR 157, .ISR_NOERR 158, .ISR_NOERR 159, .ISR_NOERR 160, .ISR_NOERR 161,
    .ISR_NOERR 162, .ISR_NOERR 163, .ISR_NOERR 164, .ISR_NOERR 165, .ISR_NOERR 166, .ISR_NOERR 167,
    .ISR_NOERR 168, .ISR_NOERR 169, .ISR_NOERR 170, .ISR_NOERR 171, .ISR_NOERR 172, .ISR_NOERR 173,
    .ISR_NOERR 174, .ISR_NOERR 175, .ISR_NOERR 176, .ISR_NOERR 177, .ISR_NOERR 178, .ISR_NOERR 179,
    .ISR_NOERR 180, .ISR_NOERR 181, .ISR_NOERR 182, .ISR_NOERR 183, .ISR_NOERR 184, .ISR_NOERR 185,
    .ISR_NOERR 186, .ISR_NOERR 187, .ISR_NOERR 188, .ISR_NOERR 189, .ISR_NOERR 190, .ISR_NOERR 191,
    .ISR_NOERR 192, .ISR_NOERR 193, .ISR_NOERR 194, .ISR_NOERR 195, .ISR_NOERR 196, .ISR_NOERR 197,
    .ISR_NOERR 198, .ISR_NOERR 199, .ISR_NOERR 200, .ISR_NOERR 201, .ISR_NOERR 202, .ISR_NOERR 203,
    .ISR_NOERR 204, .ISR_NOERR 205, .ISR_NOERR 206, .ISR_NOERR 207, .ISR_NOERR 208, .ISR_NOERR 209,
    .ISR_NOERR 210, .ISR_NOERR 211, .ISR_NOERR 212, .ISR_NOERR 213, .ISR_NOERR 214, .ISR_NOERR 215,
    .ISR_NOERR 216, .ISR_NOERR 217, .ISR_NOERR 218, .ISR_NOERR 219, .ISR_NOERR 220, .ISR_NOERR 221,
    .ISR_NOERR 222, .ISR_NOERR 223, .ISR_NOERR 224, .ISR_NOERR 225, .ISR_NOERR 226, .ISR_NOERR 227,
    .ISR_NOERR 228, .ISR_NOERR 229, .ISR_NOERR 230, .ISR_NOERR 231, .ISR_NOERR 232, .ISR_NOERR 233,
    .ISR_NOERR 234, .ISR_NOERR 235, .ISR_NOERR 236, .ISR_NOERR 237, .ISR_NOERR 238, .ISR_NOERR 239,
    .ISR_NOERR 240, .ISR_NOERR 241, .ISR_NOERR 242, .ISR_NOERR 243, .ISR_NOERR 244, .ISR_NOERR 245,
    .ISR_NOERR 246, .ISR_NOERR 247, .ISR_NOERR 248, .ISR_NOERR 249, .ISR_NOERR 250, .ISR_NOERR 251,
    .ISR_NOERR 252, .ISR_NOERR 253, .ISR_NOERR 254, .ISR_NOERR 255]

/-! ### The stack at `isr_handler` -/

/-- The registers of the interrupted code. -/
structure Cpu where
  eax : Nat
  ecx : Nat
  edx : Nat
  ebx : Nat
  esp : Nat
  ebp : Nat
  esi : Nat
  edi : Nat
  ds : Nat
  eip : Nat
  cs : Nat
  eflags : Nat
deriving DecidableEq, Repr

/-- A stack pointer and the words from it upwards. -/
structure Stack where
  esp : Nat
  words : List Nat

def Stack.push (s : Stack) (v : Nat) : Stack := ⟨u32 (s.esp + (2 ^ 32 - 4)), v :: s.words⟩

def Stack.pushes (s : Stack) (vs : List Nat) : Stack := vs.foldl Stack.push s

/-- The stack when the CPU enters a gate of ring 0, with the error code of some exceptions. -/
def entered (cpu : Cpu) (above : List Nat) (error : Option Nat) : Stack :=
  (Stack.mk cpu.esp above).pushes ([cpu.eflags, cpu.cs, cpu.eip] ++ error.toList)

/-- The pushes of `isr_common_stub`: `pusha`, then `ds` in the low half of `eax`. -/
def isrCommonStub (cpu : Cpu) (s : Stack) : Stack :=
  s.pushes [cpu.eax, cpu.ecx, cpu.edx, cpu.ebx, s.esp, cpu.ebp, cpu.esi, cpu.edi,
    (cpu.eax &&& 0xFFFF0000) ||| cpu.ds]

/-- `registers_t`. -/
structure Registers where
  ds : Nat
  edi : Nat
  esi : Nat
  ebp : Nat
  esp : Nat
  ebx : Nat
  edx : Nat
  ecx : Nat
  eax : Nat
  int_no : Nat
  err_code : Nat
  eip : Nat
  cs : Nat
  eflags : Nat
  useresp : Nat
  ss : Nat
deriving DecidableEq, Repr

/-- The words from the pointer that `isr_handler` gets. -/
def Registers.ofStack (s : Stack) : Registers :=
  let word i := s.words.getD i 0
  { ds := word 0, edi := word 1, esi := word 2, ebp := word 3, esp := word 4, ebx := word 5
    edx := word 6, ecx := word 7, eax := word 8, int_no := word 9, err_code := word 10
    eip := word 11, cs := word 12, eflags := word 13, useresp := word 14, ss := word 15 }

/-- What a stub hands to `isr_handler`. -/
def saved (stub : Stub) (cpu : Cpu) (above : List Nat) (error : Option Nat) : Registers :=
  .ofStack (isrCommonStub cpu ((entered cpu above error).pushes stub.pushes))

/-! ### The tables of `GlobalDataStruct` -/

def IDT_FLAG_GATE_32BIT_INT : Nat := 0xE

def IDT_FLAG_RING0 : Nat := 0 <<< 5

def IDT_FLAG_PRESENT : Nat := 0x80

def systemFlags : Nat := IDT_FLAG_PRESENT ||| IDT_FLAG_RING0 ||| IDT_FLAG_GATE_32BIT_INT

/-- `&global->idt[n]`. -/
def idt (global n : Nat) : Nat := global + 8 * n

/-- `&global->idt_ptr`. -/
def idtPtr (global : Nat) : Nat := global + 2048

/-- `&global->handler_functions[n]`. The table is aligned behind the 6 bytes of `idt_ptr`. -/
def handlerFunctions (global n : Nat) : Nat := global + 2056 + 4 * n

def setIdtGate (m : Mem) (global n handler flags : Nat) : Mem :=
  let m := store16 m (idt global n) (handler &&& 0xFFFF)
  let m := store16 m (idt global n + 2) 0x08
  let m := store8 m (idt global n + 4) 0
  let m := store8 m (idt global n + 5) flags
  store16 m (idt global n + 6) ((handler >>> 16) &&& 0xFFFF)

def isrGates : List (Nat × Label) :=
  [(0, .isr 0), (1, .isr 1), (2, .isr 2), (3, .isr 3), (4, .isr 4), (5, .isr 5), (6, .isr 6),
    (7, .isr 7), (8, .isr 8), (9, .isr 9), (10, .isr 10), (11, .isr 11), (12, .isr 12),
    (13, .isr 13), (14, .isr 14), (15, .isr 15), (16, .isr 16), (17, .isr 17), (18, .isr 18),
    (19, .isr 19), (20, .isr 20), (21, .isr 21), (22, .isr 22), (23, .isr 23), (24, .isr 24),
    (25, .isr 25), (26, .isr 26), (27, .isr 27), (28, .isr 28), (29, .isr 29), (30, .isr 30),
    (31, .isr 31)]

def irqGates : List (Nat × Label) :=
  [(32, .irq 0), (33, .irq 1), (34, .irq 2), (35, .irq 3), (36, .irq 4), (37, .irq 5), (38, .irq 6),
    (39, .irq 7), (40, .irq 8), (41, .irq 9), (42, .irq 10), (43, .irq 11), (44, .irq 12),
    (45, .irq 13), (46, .irq 14), (47, .irq 15)]

def extraGates : List (Nat × Label) :=
  [(48, .isr 48), (49, .isr 49), (50, .isr 50), (51, .isr 51), (52, .isr 52), (53, .isr 53),
    (54, .isr 54), (55, .isr 55), (56, .isr 56), (57, .isr 57), (58, .isr 58), (59, .isr 59),
    (60, .isr 60), (61, .isr 61), (62, .isr 62), (63, .isr 63), (64, .isr 64), (65, .isr 65),
    (66, .isr 66), (67, .isr 67), (68, .isr 68), (69, .isr 69), (70, .isr 70), (71, .isr 71),
    (72, .isr 72), (73, .isr 73), (74, .isr 74), (75, .isr 75), (76, .isr 76), (77, .isr 77),
    (78, .isr 78), (79, .isr 79), (80, .isr 80), (81, .isr 81), (82, .isr 82), (83, .isr 83),
    (84, .isr 84), (85, .isr 85), (86, .isr 86), (87, .isr 87), (88, .isr 88), (89, .isr 89),
    (90, .isr 90), (91, .isr 91), (92, .isr 92), (93, .isr 93), (94, .isr 94), (95, .isr 95),
    (96, .isr 96), (97, .isr 97), (98, .isr 98), (99, .isr 99), (100, .isr 100), (101, .isr 101),
    (102, .isr 102), (103, .isr 103), (104, .isr 104), (105, .isr 105), (106, .isr 106),
    (107, .isr 107), (108, .isr 108), (109, .isr 109), (110, .isr 110), (111, .isr 111),
    (112, .isr 112), (113, .isr 113), (114, .isr 114), (115, .isr 115), (116, .isr 116),
    (117, .isr 117), (118, .isr 118), (119, .isr 119), (120, .isr 120), (121, .isr 121),
    (122, .isr 122), (123, .isr 123), (124, .isr 124), (125, .isr 125), (126, .isr 126),
    (127, .isr 127), (128, .isr 128), (129, .isr 129), (130, .isr 130), (131, .isr 131),
    (132, .isr 132), (133, .isr 133), (134, .isr 134), (135, .isr 135), (136, .isr 136),
    (137, .isr 137), (138, .isr 138), (139, .isr 139), (140, .isr 140), (141, .isr 141),
    (142, .isr 142), (143, .isr 143), (144, .isr 144), (145, .isr 145), (146, .isr 146),
    (147, .isr 147), (148, .isr 148), (149, .isr 149), (150, .isr 150), (151, .isr 151),
    (152, .isr 152), (153, .isr 153), (154, .isr 154), (155, .isr 155), (156, .isr 156),
    (157, .isr 157), (158, .isr 158), (159, .isr 159), (160, .isr 160), (161, .isr 161),
    (162, .isr 162), (163, .isr 163), (164, .isr 164), (165, .isr 165), (166, .isr 166),
    (167, .isr 167), (168, .isr 168), (169, .isr 169), (170, .isr 170), (171, .isr 171),
    (172, .isr 172), (173, .isr 173), (174, .isr 174), (175, .isr 175), (176, .isr 176),
    (177, .isr 177), (178, .isr 178), (179, .isr 179), (180, .isr 180), (181, .isr 181),
    (182, .isr 182), (183, .isr 183), (184, .isr 184), (185, .isr 185), (186, .isr 186),
    (187, .isr 187), (188, .isr 188), (189, .isr 189), (190, .isr 190), (191, .isr 191),
    (192, .isr 192), (193, .isr 193), (194, .isr 194), (195, .isr 195), (196, .isr 196),
    (197, .isr 197), (198, .isr 198), (199, .isr 199), (200, .isr 200), (201, .isr 201),
    (202, .isr 202), (203, .isr 203), (204, .isr 204), (205, .isr 205), (206, .isr 206),
    (207, .isr 207), (208, .isr 208), (209, .isr 209), (210, .isr 210), (211, .isr 211),
    (212, .isr 212), (213, .isr 213), (214, .isr 214), (215, .isr 215), (216, .isr 216),
    (217, .isr 217), (218, .isr 218), (219, .isr 219), (220, .isr 220), (221, .isr 221),
    (222, .isr 222), (223, .isr 223), (224, .isr 224), (225, .isr 225), (226, .isr 226),
    (227, .isr 227), (228, .isr 228), (229, .isr 229), (230, .isr 230), (231, .isr 231),
    (232, .isr 232), (233, .isr 233), (234, .isr 234), (235, .isr 235), (236, .isr 236),
    (237, .isr 237), (238, .isr 238), (239, .isr 239), (240, .isr 240), (241, .isr 241),
    (242, .isr 242), (243, .isr 243), (244, .isr 244), (245, .isr 245), (246, .isr 246),
    (247, .isr 247), (248, .isr 248), (249, .isr 249), (250, .isr 250), (251, .isr 251),
    (252, .isr 252), (253, .isr 253), (254, .isr 254), (255, .isr 255)]

/-- The installation functions: one `set_idt_gate` for each gate of a list. -/
def install (symbol : Label → Nat) (baseAdr global : Nat) (gates : List (Nat × Label))
    (m : Mem) : Mem :=
  gates.foldl (fun m gate =>
    setIdtGate m global gate.1 (u32 (baseAdr + symbol gate.2)) systemFlags) m

def isrInstall (symbol : Label → Nat) (baseAdr global : Nat) (m : Mem) : Mem :=
  install symbol baseAdr global isrGates m

def irqInstall (symbol : Label → Nat) (baseAdr global : Nat) (m : Mem) : Mem :=
  install symbol baseAdr global irqGates m

def installExtraIsr (symbol : Label → Nat) (baseAdr global : Nat) (m : Mem) : Mem :=
  install symbol baseAdr global extraGates m

/-- The body of the loop of `idt_init`. -/
def clearEntry (global : Nat) (m : Mem) (i : Nat) : Mem :=
  store32 (storeBytes m (idt global i) (List.replicate 8 0)) (handlerFunctions global i) 0

def clearTables (global n : Nat) (m : Mem) : Mem := (List.range n).foldl (clearEntry global) m

/-- The stores of `idt_init`. -/
def idtInit (symbol : Label → Nat) (baseAdr global : Nat) (m : Mem) : Mem :=
  let m := clearTables global 256 m
  let m := isrInstall symbol baseAdr global m
  let m := irqInstall symbol baseAdr global m
  let m := installExtraIsr symbol baseAdr global m
  let m := store32 m (idtPtr global + 2) global
  store16 m (idtPtr global) (256 * 8 - 1)

/-- `core->ptr`. -/
def argsPtr (m : Mem) (core : Nat) : Nat := load32 m (core + 12)

def registerInterrupt (m : Mem) (core global : Nat) : Mem :=
  let args := argsPtr m core
  let id := load32 m args
  let flags := load32 m (args + 4)
  let handler := load32 m (args + 8)
  let m := store32 m (handlerFunctions global id) handler
  store8 m (idt global id + 5) flags

/-! ### Delivery -/

/-- The handler address that the CPU puts together from the gate. -/
def gateOffset (m : Mem) (e : Nat) : Nat := load16 m (e + 6) <<< 16 ||| load16 m e

/-- What `isr_handler` does: the message and `hlt` of `UNHANDLED_INTERRUPT`, the call, port
writes. -/
inductive Event where
  | unhandled (int_no : Nat)
  | call (handler : Nat) (r : Registers)
  | outb (port data : Nat)
deriving DecidableEq, Repr

def PIC1_COMMAND : Nat := 0x20

def PIC2_COMMAND : Nat := 0xA0

def PIC_EOI : Nat := 0x20

/-- The end of `isr_handler`, which reads the saved number again. -/
def endOfInterrupt (int_no : Nat) : List Event :=
  if 31 < int_no ∧ int_no < 48 then
    (if int_no ≥ 40 then [.outb PIC2_COMMAND PIC_EOI] else []) ++ [.outb PIC1_COMMAND PIC_EOI]
  else []

/-- `isr_handler`. The code at a handler's address may change the saved registers and memory. -/
def isrHandler (code : Nat → Registers → Mem → Registers × Mem) (m : Mem) (global : Nat)
    (r : Registers) : Registers × Mem × List Event :=
  let handler := load32 m (handlerFunctions global r.int_no)
  let before := if handler = 0 then [.unhandled r.int_no] else []
  let after := code handler r m
  (after.1, after.2, before ++ .call handler r :: endOfInterrupt after.1.int_no)

/-- The CPU takes vector `v` through its gate; `image` tells which stub stands at an address.
The stack is kept apart from `m`. -/
def deliver (image : Nat → Option Stub) (code : Nat → Registers → Mem → Registers × Mem)
    (m : Mem) (global v : Nat) (cpu : Cpu) (above : List Nat) (error : Option Nat) :
    Option (Registers × Mem × List Event) :=
  (image (gateOffset m (idt global v))).map fun stub =>
    isrHandler code m global (saved stub cpu above error)

end HiveRK.Interrupt
