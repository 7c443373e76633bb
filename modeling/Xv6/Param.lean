import Mathlib.Data.Nat.Notation

namespace Xv6

def NPROC : Nat := 64
def NCPU : Nat := 8
def NOFILE : Nat := 16
def NFILE : Nat := 100
def MAXARG : Nat := 32
def MAXPATH : Nat := 128
def USERSTACK : Nat := 1
def MAXOPBLOCKS : Nat := 10
def LOGSIZE : Nat := MAXOPBLOCKS * 3
def BSIZE : Nat := 1024

/-- mkfs gives the log area this many blocks, the header block included. -/
def nlog : Nat := LOGSIZE

end Xv6
