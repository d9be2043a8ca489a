import Xv6.Fs.Path

/-! `mkfs.c`: the host program that writes the first file-system image from a list of files. -/
namespace Xv6.Mkfs
open Bytes Fs
open Xv6.Log (BSIZE Block LOGSIZE)

def FSSIZE : ℕ := 1000
def NINODES : ℕ := 200
def FSMAGIC : ℕ := 0x10203040

def nbitmap : ℕ := FSSIZE / (BSIZE * 8) + 1
def ninodeblocks : ℕ := NINODES / IPB + 1
def nlog : ℕ := LOGSIZE
/-- Number of meta blocks: boot, sb, log, inode and bitmap blocks. -/
def nmeta : ℕ := 2 + nlog + ninodeblocks + nbitmap
def nblocks : ℕ := FSSIZE - nmeta

@[irreducible] def sb : Superblock where
  size := FSSIZE
  nblocks := nblocks
  ninodes := NINODES
  nlog := nlog
  logstart := 2
  inodestart := 2 + nlog
  bmapstart := 2 + nlog + ninodeblocks
  log_pos := by decide
  log_fits := by decide
  inodes_fit := by decide
  bmap_fits := by decide
  size_lt := by decide
  root_lt := by decide
  ninodes_le := by decide

theorem sb_size : sb.size = FSSIZE := by
  unfold sb
  rfl

theorem sb_ninodes : sb.ninodes = NINODES := by
  unfold sb
  rfl

theorem sb_datastart : sb.datastart = nmeta := by
  unfold sb
  rfl

theorem sb_logstart : sb.logstart = 2 := by
  unfold sb
  rfl

theorem sb_inodestart : sb.inodestart = 2 + nlog := by
  unfold sb
  rfl

theorem sb_bmapstart : sb.bmapstart = 2 + nlog + ninodeblocks := by
  unfold sb
  rfl

/-- The image file, with its length in blocks, and the two counters. They are `uint`s of which
`argc` and the size of the disk keep the values far from overflow. -/
structure State where
  img : ℕ → Block
  len : ℕ
  freeinode : ℕ
  freeblock : ℕ

inductive Fail where
  | die
  | assertion
  deriving DecidableEq

abbrev M := StateT State (Except Fail)

def zeroes : Block := fun _ => 0

@[irreducible] def sector (sec : ℕ) : ℕ := sec * BSIZE % 2 ^ 32 / BSIZE

def wsect (sec : ℕ) (buf : Block) : M Unit :=
  modify fun s =>
    { s with img := Function.update s.img (sector sec) buf, len := max s.len (sector sec + 1) }

def rsect (sec : ℕ) : M Block := do
  let s ← get
  if sector sec < s.len then return s.img (sector sec) else throw .die

def winode (inum : ℕ) (ip : Dinode) : M Unit := do
  let bn := sb.IBLOCK inum
  let buf ← rsect bn
  wsect bn (writeDinode buf (inum % IPB) ip)

def rinode (inum : ℕ) : M Dinode := do
  let buf ← rsect (sb.IBLOCK inum)
  return readDinode buf (inum % IPB)

def ialloc (type : BitVec 16) : M ℕ := do
  let s ← get
  set { s with freeinode := s.freeinode + 1 }
  winode s.freeinode { type := type, nlink := 1, size := 0 }
  return s.freeinode

def balloc (used : ℕ) : M Unit :=
  if used < BSIZE * 8 then wsect sb.bmapstart ((List.range used).foldl markBit zeroes)
  else throw .assertion

def nextBlock : M ℕ := do
  let s ← get
  set { s with freeblock := s.freeblock + 1 }
  return s.freeblock

def fillAddr (din : Dinode) (j : Fin (NDIRECT + 1)) : M Dinode :=
  if din.addrs j = 0 then do
    let b ← nextBlock
    return din.setAddr j (BitVec.ofNat 32 b)
  else return din

/-- The block `x` of the file block `fbn`, with the blocks missing on the way to it. -/
def findBlock (din : Dinode) (fbn : ℕ) : M (Dinode × ℕ) :=
  if fbn < NDIRECT then do
    let din ← fillAddr din (Fin.ofNat _ fbn)
    return (din, (din.addrs (Fin.ofNat _ fbn)).toNat)
  else do
    let din ← fillAddr din (Fin.last NDIRECT)
    let indirect ← rsect (din.addrs (Fin.last NDIRECT)).toNat
    if getWord indirect (4 * (fbn - NDIRECT)) = 0 then do
      let b ← nextBlock
      let indirect := putWord indirect (4 * (fbn - NDIRECT)) (BitVec.ofNat 32 b)
      wsect (din.addrs (Fin.last NDIRECT)).toNat indirect
      return (din, (getWord indirect (4 * (fbn - NDIRECT))).toNat)
    else return (din, (getWord indirect (4 * (fbn - NDIRECT))).toNat)

def iappendLoop : ℕ → Dinode → ℕ → List Byte → M (Dinode × ℕ)
  | 0, din, off, _ => return (din, off)
  | fuel + 1, din, off, p =>
    if 0 < p.length then
      if off / BSIZE < MAXFILE then do
        let (din, x) ← findBlock din (off / BSIZE)
        let n1 := min p.length ((off / BSIZE + 1) * BSIZE - off)
        let buf ← rsect x
        wsect x (patch buf (off - off / BSIZE * BSIZE) n1 fun k => p.getD k 0)
        iappendLoop fuel din (off + n1) (p.drop n1)
      else throw .assertion
    else return (din, off)

def iappend (inum : ℕ) (p : List Byte) : M Unit := do
  let din ← rinode inum
  let (din, off) ← iappendLoop p.length din din.size.toNat p
  winode inum { din with size := BitVec.ofNat 32 off }

/-- A file named on the command line: what the calls of `read` return before the first that returns
no bytes, if the file can be opened. -/
structure Input where
  path : List Byte
  reads : Option (List (List Byte))
  no_nul : 0 ∉ path
  pieces : ∀ ps, reads = some ps → ∀ p ∈ ps, 0 < p.length ∧ p.length ≤ BSIZE

def userDir : List Byte := [117, 115, 101, 114, 47]

def underscore : Byte := 95

def stripUser (path : List Byte) : List Byte :=
  if strncmp 5 path userDir = 0 then path.drop 5 else path

def skipUnderscore (name : List Byte) : List Byte :=
  if name.head? = some underscore then name.tail else name

def Input.shortname (f : Input) : List Byte := skipUnderscore (stripUser f.path)

def dirent (inum : ℕ) (name : List Byte) : Dirent where
  inum := BitVec.ofNat 16 inum
  name := strncpy DIRSIZ name

def addFile (rootino : ℕ) (f : Input) : M Unit :=
  if (stripUser f.path).contains slash then throw .assertion
  else
    match f.reads with
    | none => throw .die
    | some reads => do
      let inum ← ialloc T_FILE
      iappend rootino (dirent inum f.shortname).bytes
      reads.forM (iappend inum)

def fixRoot (rootino : ℕ) : M Unit := do
  let din ← rinode rootino
  let off := din.size.toNat
  let off := (off / BSIZE + 1) * BSIZE
  winode rootino { din with size := BitVec.ofNat 32 off }

def superFields : List ℕ :=
  [FSMAGIC, sb.size, sb.nblocks, sb.ninodes, sb.nlog, sb.logstart, sb.inodestart, sb.bmapstart]

def superBlock : Block :=
  (superFields.mapIdx fun k v => (4 * k, BitVec.ofNat 32 v)).foldl
    (fun b w => putWord b w.1 w.2) zeroes

/-- The loop that writes the blocks of the image for the first time. -/
@[irreducible] def zeroDisk : M Unit := (List.range FSSIZE).forM fun i => wsect i zeroes

def main (files : List Input) : M Unit := do
  zeroDisk
  wsect 1 superBlock
  let rootino ← ialloc T_DIR
  if rootino = ROOTINO then do
    iappend rootino (dirent rootino dot).bytes
    iappend rootino (dirent rootino dotdot).bytes
    files.forM (addFile rootino)
    fixRoot rootino
    let s ← get
    balloc s.freeblock
  else throw .assertion

def start : State where
  img := fun _ => zeroes
  len := 0
  freeinode := 1
  freeblock := nmeta

/-- The image and the counters when `mkfs` exits with status 0. -/
def mkfs (files : List Input) : Except Fail State := (main files start).map Prod.snd

end Xv6.Mkfs
