/-!
The library of the machine: the calls a program can make by a single instruction byte, with the
number of values each takes and whether it leaves one.
-/
namespace Handheld

inductive Call where
  | putchar | getchar | printf | strcpy | strlen | setscreen | refresh | delay | writeblock
  | getblock | textout | block | rectangle | exit | clearscreen | abs | rand | srand | locate
  | inkey | point | getpoint | line | box | circle | ellipse | beep | isalnum | isalpha
  | iscntrl | isdigit | isgraph | islower | isprint | ispunct | isspace | isupper | isxdigit
  | strcat | strchr | strcmp | strstr | tolower | toupper | memset | memcpy | fopen | fclose
  | fread | fwrite | fseek | ftell | feof | rewind | getc | putc | sprintf | deletefile | getms
  | gettime | checkkey | crc16 | secret | fill | alloc | getword
  deriving DecidableEq, Repr

structure Signature where
  name : String
  args : Nat
  variadic : Bool := false
  returns : Bool := false
  blocking : Bool := false
  deriving DecidableEq, Repr

namespace Call

def all : List Call :=
  [putchar, getchar, printf, strcpy, strlen, setscreen, refresh, delay, writeblock, getblock,
    textout, block, rectangle, exit, clearscreen, abs, rand, srand, locate, inkey, point,
    getpoint, line, box, circle, ellipse, beep, isalnum, isalpha, iscntrl, isdigit, isgraph,
    islower, isprint, ispunct, isspace, isupper, isxdigit, strcat, strchr, strcmp, strstr,
    tolower, toupper, memset, memcpy, fopen, fclose, fread, fwrite, fseek, ftell, feof, rewind,
    getc, putc, sprintf, deletefile, getms, gettime, checkkey, crc16, secret, fill, alloc,
    getword]

def firstCode : UInt8 := 0x80
def lastCode : UInt8 := 0xDF

def signature : Call → Signature
  | putchar => { name := "putchar", args := 1 }
  | getchar => { name := "getchar", args := 0, returns := true, blocking := true }
  | printf => { name := "printf", args := 1, variadic := true }
  | strcpy => { name := "strcpy", args := 2 }
  | strlen => { name := "strlen", args := 1, returns := true }
  | setscreen => { name := "setscreen", args := 1 }
  | refresh => { name := "refresh", args := 0 }
  | delay => { name := "delay", args := 1 }
  | writeblock => { name := "writeblock", args := 6 }
  | getblock => { name := "getblock", args := 6 }
  | textout => { name := "textout", args := 4 }
  | block => { name := "block", args := 5 }
  | rectangle => { name := "rectangle", args := 5 }
  | exit => { name := "exit", args := 1 }
  | clearscreen => { name := "clearscreen", args := 0 }
  | abs => { name := "abs", args := 1, returns := true }
  | rand => { name := "rand", args := 0, returns := true }
  | srand => { name := "srand", args := 1 }
  | locate => { name := "locate", args := 2 }
  | inkey => { name := "inkey", args := 0, returns := true }
  | point => { name := "point", args := 3 }
  | getpoint => { name := "getpoint", args := 2, returns := true }
  | line => { name := "line", args := 5 }
  | box => { name := "box", args := 6 }
  | circle => { name := "circle", args := 5 }
  | ellipse => { name := "ellipse", args := 6 }
  | beep => { name := "beep", args := 0 }
  | isalnum => { name := "isalnum", args := 1, returns := true }
  | isalpha => { name := "isalpha", args := 1, returns := true }
  | iscntrl => { name := "iscntrl", args := 1, returns := true }
  | isdigit => { name := "isdigit", args := 1, returns := true }
  | isgraph => { name := "isgraph", args := 1, returns := true }
  | islower => { name := "islower", args := 1, returns := true }
  | isprint => { name := "isprint", args := 1, returns := true }
  | ispunct => { name := "ispunct", args := 1, returns := true }
  | isspace => { name := "isspace", args := 1, returns := true }
  | isupper => { name := "isupper", args := 1, returns := true }
  | isxdigit => { name := "isxdigit", args := 1, returns := true }
  | strcat => { name := "strcat", args := 2 }
  | strchr => { name := "strchr", args := 2, returns := true }
  | strcmp => { name := "strcmp", args := 2, returns := true }
  | strstr => { name := "strstr", args := 2, returns := true }
  | tolower => { name := "tolower", args := 1, returns := true }
  | toupper => { name := "toupper", args := 1, returns := true }
  | memset => { name := "memset", args := 3 }
  | memcpy => { name := "memcpy", args := 3 }
  | fopen => { name := "fopen", args := 2, returns := true }
  | fclose => { name := "fclose", args := 1 }
  | fread => { name := "fread", args := 4, returns := true }
  | fwrite => { name := "fwrite", args := 4, returns := true }
  | fseek => { name := "fseek", args := 3, returns := true }
  | ftell => { name := "ftell", args := 1, returns := true }
  | feof => { name := "feof", args := 1, returns := true }
  | rewind => { name := "rewind", args := 1 }
  | getc => { name := "getc", args := 1, returns := true }
  | putc => { name := "putc", args := 2, returns := true }
  | sprintf => { name := "sprintf", args := 2, variadic := true }
  | deletefile => { name := "deletefile", args := 1, returns := true }
  | getms => { name := "getms", args := 0, returns := true }
  | gettime => { name := "gettime", args := 1 }
  | checkkey => { name := "checkkey", args := 1, returns := true }
  | crc16 => { name := "crc16", args := 2, returns := true }
  | secret => { name := "secret", args := 3 }
  | fill => { name := "fill", args := 3 }
  | alloc => { name := "alloc", args := 1, returns := true }
  | getword => { name := "getword", args := 1, returns := true, blocking := true }

def code : Call → UInt8
  | putchar => 0x80
  | getchar => 0x81
  | printf => 0x82
  | strcpy => 0x83
  | strlen => 0x84
  | setscreen => 0x85
  | refresh => 0x86
  | delay => 0x87
  | writeblock => 0x88
  | getblock => 0x89
  | textout => 0x8A
  | block => 0x8B
  | rectangle => 0x8C
  | exit => 0x8D
  | clearscreen => 0x8E
  | abs => 0x8F
  | rand => 0x90
  | srand => 0x91
  | locate => 0x92
  | inkey => 0x93
  | point => 0x94
  | getpoint => 0x95
  | line => 0x96
  | box => 0x97
  | circle => 0x98
  | ellipse => 0x99
  | beep => 0x9A
  | isalnum => 0x9B
  | isalpha => 0x9C
  | iscntrl => 0x9D
  | isdigit => 0x9E
  | isgraph => 0x9F
  | islower => 0xA0
  | isprint => 0xA1
  | ispunct => 0xA2
  | isspace => 0xA3
  | isupper => 0xA4
  | isxdigit => 0xA5
  | strcat => 0xA6
  | strchr => 0xA7
  | strcmp => 0xA8
  | strstr => 0xA9
  | tolower => 0xAA
  | toupper => 0xAB
  | memset => 0xAC
  | memcpy => 0xAD
  | fopen => 0xAE
  | fclose => 0xAF
  | fread => 0xB0
  | fwrite => 0xB1
  | fseek => 0xB2
  | ftell => 0xB3
  | feof => 0xB4
  | rewind => 0xB5
  | getc => 0xB6
  | putc => 0xB7
  | sprintf => 0xB8
  | deletefile => 0xB9
  | getms => 0xBA
  | gettime => 0xBB
  | checkkey => 0xBC
  | crc16 => 0xBD
  | secret => 0xBE
  | fill => 0xBF
  | alloc => 0xC0
  | getword => 0xC1

def name (c : Call) : String :=
  c.signature.name

def byCode : Array Call :=
  all.toArray

def ofCode? (code : UInt8) : Option Call :=
  if code < firstCode then none else byCode[(code - firstCode).toNat]?

def ofName? (name : String) : Option Call :=
  all.find? (·.name == name)

end Call
end Handheld
