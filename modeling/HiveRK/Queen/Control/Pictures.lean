import HiveRK.Queen.Control.Screen

/-!
# The pictures of the console

`tea`, `gun` and `fox` each print one string constant from the upper left corner on. The lines of
the constants are as `main.c` has them; a `\4` in the ninth line of the tea is the character 4.
-/

namespace HiveRK.Control

open Machine Canvas
open Display (CString TextAt)

/-- A text that fits on the screen. -/
structure Picture where
  lines : List (List Byte)
  rows : lines.length ≤ 25
  fits : ∀ line ∈ lines, 0 ∉ line ∧ enter ∉ line ∧ line.length ≤ 80

/-- The string constant. -/
def Picture.chars (picture : Picture) (i : Nat) : Byte := (joined picture.lines).getD i 0

/-- What is seen of it: `SYSprint` exchanges the digits of the color `0x20`. -/
def Picture.cells (picture : Picture) : List (List Cell) := picture.lines.map (colored 0x02)

def textLines (lines : List String) : List (List Byte) :=
  lines.map fun line => line.toUTF8.data.toList.map UInt8.toBitVec

/-- The lines are joined by a character that is none of these. -/
theorem notMem_joined {b : Byte} (other : b ≠ enter) {lines : List (List Byte)}
    (none : ∀ line ∈ lines, b ∉ line) : b ∉ joined lines := by
  induction lines with
  | nil => exact List.not_mem_nil
  | cons line lines ih =>
      obtain ⟨here, rest⟩ := List.forall_mem_cons.mp none
      cases lines with
      | nil => exact here
      | cons next lines =>
          have whole : joined (line :: next :: lines) = line ++ enter :: joined (next :: lines) :=
            rfl
          rw [whole, List.mem_append, List.mem_cons]
          rintro (first | same | later)
          · exact here first
          · exact other same
          · exact ih rest later

/-- A picture is shown from the first row on. -/
theorem sysPrint_picture {m : Mem} {g : Nat → Nat → Cell} (picture : Picture) (shows : Shows m g) :
    ∃ m', Shows m' (writeLines g 0 0 picture.cells) ∧ WritesWithin m m' vidmem 4000 ∧
      Returns (fun fuel => sysPrint fuel (fun _ => picture.chars) 0 0 0x20 m) m' := by
  have ends : 0 ∉ joined picture.lines :=
    notMem_joined (by decide) fun line member => (picture.fits line member).1
  have text : TextAt picture.chars 0 (joined picture.lines) := (CString.ofList _ ends).holds
  refine sysPrint_lines 0x20 (fun line member => (picture.fits line member).2.1)
    (fun _ _ => text) shows ?_ fun line member => ?_
  · rw [Nat.zero_add]
    exact picture.rows
  · rw [Nat.zero_add]
    exact (picture.fits line member).2.2

def tea : Picture where
  lines := textLines
    ["  \x7bLBEk@u0%M@y*R*                \"*4@\"4@@@&,FB4[@B",
      "e#BB[&B+5w$1R'                       *4%%R, 4B4LB4",
      "&B4BnEw2P&M            ,,.              *4B&w7QJ4U",
      "4B44rTS4F         ,x444RMR444Ew,         `44$ZA[44",
      "4@4B4L,`       ,r44FDe&HuuuD@mDA4Lu        RE\"F1#4",
      "4E4@4R\"      e4&*]J#@BBB4@B4@BBwUuR4W       *N4$$B",
      "*RB4BF     44A,@A,4B444RB@@B@REBLTYW*4W      44444",
      "@BBBB    ,4R)K4MA***\"%@%|%%@@A'\"`>t\"E%\"4,    'jM&M",
      "4REU    ,4FnIw/4K4LE T%%4N%%N@J|44k rm$\x04u    4BRB",
      "BM4P    4F44m4 444Q. w\\`|N%%R*IJ444kRY @T4    `M**",
      "44R    4Pe4BP\"      \"44w,244R,,     *[& w4&       ",
      "M@`   JRjJB@ [B*    4444444444\"'   E jBB  4L      ",
      "%F   ,4)jBBBLW4u*vm 4444444444L\"wK,44 BBL `4,     ",
      "*    4`HjB4BL444&wr44444B%444444w4444hBBB %'B     ",
      "    4E|  BB4L444444444444%44444444444\"B44  %T&    ",
      "    4 [ UBBB|44444444444444444444444MuBB4   ufE   ",
      " zf4F ] UB&BL,44444444&RRRMR4444444R HBRB  4L BL. ",
      "44JR  j H4Tk[ h*44&\",e4444444KEZR4M/  @k4J4@@ `4L&",
      "4EBL  `  [ [@)'| 5.4&4444444444TL~N@\"J@L[,e@&  j4L",
      "`N*Nw  `1  J% u~,r4#[K4444444;4z*RBw1[@hT4@&' ,@M,",
      "4``w*4k,  1\"0L444Er@wf&M*M\"* IE04$,4MBM  &F ,AOe&H",
      "  \"*4RkZ*4 U\"%444444R,'Jr4whw4E84E84uM` ' 4U@@%M\" ",
      "      +4RMM\"K0R4444A4R4`   `` `4M4444%M*K4RRP     "]
  rows := by decide
  fits := by decide +kernel

def gun : Picture where
  lines := textLines
    ["4444444444444444444444444444R*\"*444444444444444444",
      "4444444444444444444444444R\",rB4B f444444444444444R",
      "44444444444444444444444* zB44444L 444444444444A' -",
      "444444444444444444444\" rB44444444 f44444444F` wB44",
      "444444444444444444`  r44444444RA* ,,,,. `` ,44444'",
      "44444444444444444FJkB44444444M   444R`  ,444444E,B",
      "4444444444444444' r444444444F   444\"   rB444444LrH",
      "444444444444P=T r44444BE4444&,rE44E   4444444444&*",
      "44444A\"\"\"*BF,rw44444M   f4444444444B4444444444444B",
      "44M\"\" @ h   '4B444B'    J44444B44444444R\"  `*44444",
      "M z@     Nu    '*4BL   ,4&4444444BM@44R      `4444",
      " 8  '  \"@  H%u    `*44444k444M4444R4%4E      ,4444",
      " 8 |    [  H   `      \"f444444k22r44B44Bkw,w444444",
      " 8  W,,eu  H             `*444444444%4444444444444",
      " \"`` \"\" H`                   \"` `\"*@44444444444444",
      " 8N *%m\".1NH                        44444444444444",
      "  `UNNKNM`                      `% ,'4444444444444",
      "w,                                   !444444444444",
      "444Ew,                                4E4440*44B  ",
      "44444444rw,                           j `**  %u~@ ",
      "4444444444` B@@BBL ,4BBLBK@4Wy       ,K           ",
      "444444444E 4BBEEEE BEBKK44444444w   |             ",
      "444444444  B444444.\\BB4444444444B4L.`%%%%%%%%%%%%%"]
  rows := by decide
  fits := by decide +kernel

def fox : Picture where
  lines := textLines
    ["................................................................................",
      "................     ......................................     ................",
      "..............  .....     ............................     .....  ..............",
      ".............   =====.     ..........................     .=====   .............",
      ".............   @@@@@+====-   ....................   -====+@@@@@   .............",
      ".............   @@@@@%%%%%#--   ...          ...   --#%%%%%@@@@@   .............",
      ".............   @@@@@@@@@@%==...  ............  ...==%@@@@@@@@@@   .............",
      ".............   @@@@@@@@@@%++===  .++++++++++.  ===++%@@@@@@@@@@   .............",
      "................  :@@@@@@@%++++++++++++++++++++++++++%@@@@@@@:  ................",
      "................  :@@@@@***++++++++++++++++++++++++++***@@@@@:  ................",
      "................  :##%%%+++**=----=++++++++++=----=**+++%%%##:  ................",
      "..................   -++++*@@:    .++++++++++.    :@@*++++-   ..................",
      "..................   -++++*@@:    .++++++++++.    :@@*++++-   ..................",
      "................  :##++++++**=----=++++++++++=----=**++++++##:  ................",
      "................  :##***++++++++++++++++++++++++++++++++***##:  ................",
      "..................   #@@+++++++++++==========+++++++++++@@#   ..................",
      "................  :@@@@@@@%+++++++*@@:    :@@*+++++++%@@@@@@@:  ................",
      "................  .::#@@@@@%%%%%%%%@@######@@%%%%%%%%@@@@@#::.  ................",
      "...................  +##@@@@@@@@###@@@@@@@@@@###@@@@@@@@##+  ...................",
      ".....................   @@@@@@@@  :@@@@@@@@@@:  @@@@@@@@   .....................",
      "........................  :@@@@@@@#          #@@@@@@@:  ........................",
      "........................  .:::::@@@##########@@@:::::.  ........................",
      "...........................     ################     ...........................",
      "................................                ................................",
      "................................................................................"]
  rows := by decide
  fits := by decide +kernel

end HiveRK.Control
