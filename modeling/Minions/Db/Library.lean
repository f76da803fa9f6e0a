import Minions.Data.CInt
import Minions.Db.Kernel

/-! The database library of `db/db.c`: one definition per function, with the checks, the
order of system calls and the messages of the source. The handle is passed and returned
explicitly. A `char *` argument is the list of bytes before its terminating null.
-/

namespace Minions.Db

open Minions.Data Minions.Logic

def IDXLEN_SZ : Nat := 4
def SEP : Byte := 58
def SPACE : Byte := 32
def NEWLINE : Byte := 10
def PTR_SZ : Nat := 7
def PTR_MAX : Int := 9999999
def NHASH_DEF : Nat := 137
def FREE_OFF : Nat := 0
def HASH_OFF : Nat := PTR_SZ
def DB_INSERT : Int := 1
def DB_REPLACE : Int := 2
def DB_STORE : Int := 3
def IDXLEN_MIN : Nat := 6
def IDXLEN_MAX : Nat := 1024
def DATLEN_MIN : Nat := 2
def DATLEN_MAX : Nat := 1024
def EINVAL : Int := 22
def ENOENT : Int := 2

/-- The private representation of an open database (`DB`), together with the process's
`errno`. The buffers hold C strings. The path name is left out: the two files are named by
`Fd`.
-/
structure DB where
  idxfd : Int
  datfd : Int
  idxbuf : List Byte
  datbuf : List Byte
  idxoff : Int
  idxlen : Nat
  datoff : Int
  datlen : Nat
  ptrval : Int
  ptroff : Int
  chainoff : Int
  hashoff : Nat
  nhash : Nat
  cntDelok : Nat
  cntDelerr : Nat
  cntFetchok : Nat
  cntFetcherr : Nat
  cntNextrec : Nat
  cntStor1 : Nat
  cntStor2 : Nat
  cntStor3 : Nat
  cntStor4 : Nat
  cntStorerr : Nat
  errno : Int
deriving Repr, DecidableEq

/-- The C string at the start of a buffer. -/
def cstr (buffer : List Byte) : List Byte := buffer.takeWhile (· ≠ 0)

/-- `strchr` with the separator: the text before it and the text after it. -/
def splitSep (text : List Byte) : Option (List Byte × List Byte) :=
  match text.dropWhile (· ≠ SEP) with
  | [] => none
  | _ :: rest => some (text.takeWhile (· ≠ SEP), rest)

/-- The loop of `_db_hash`: `hval += c * i` in `unsigned long`, with a signed `char`. -/
def hashLoop : List Byte → Nat → Nat → Nat
  | [], _, hval => hval
  | c :: rest, i, hval => hashLoop rest (i + 1) (sizeT ((hval : Int) + c.toInt8.toInt * i))

/-- `_db_hash`. -/
def dbHash (nhash : Nat) (key : List Byte) : Nat := hashLoop key 1 0 % nhash

-----------------------------------------------------------------------------------------
-- Reading and writing parts of the two files
-----------------------------------------------------------------------------------------

/-- `_db_readptr`. -/
def dbReadptr (offset : Int) : M Int := do
  let off ← lseek .idx offset .set
  if off = -1 then errDump "_db_readptr: lseek error to ptr field"
  let asciiptr ← read .idx PTR_SZ
  if asciiptr.length ≠ PTR_SZ then errDump "_db_readptr: read error of ptr field"
  return atol (cstr asciiptr)

/-- The last part of `_db_readidx`: the separators and the two numbers of the record that
was read into `idxbuf`, whose newline has been replaced by a null.
-/
def parseIdxbuf (db : DB) (idxbuf : List Byte) : M (Int × DB) :=
  match splitSep idxbuf with
  | none => errDump "_db_readidx: missing first separator"
  | some (key, rest) =>
      match splitSep rest with
      | none => errDump "_db_readidx: missing second separator"
      | some (ptr1, ptr2) =>
          if SEP ∈ ptr2 then errDump "_db_readidx: too many separators"
          else if atol ptr1 < 0 then errDump "_db_readidx: starting offset < 0"
          else if sizeT (atol ptr2) = 0 ∨ sizeT (atol ptr2) > DATLEN_MAX then
            errDump "_db_readidx: invalid length"
          else
            return (db.ptrval,
              { db with idxbuf := key, datoff := atol ptr1, datlen := sizeT (atol ptr2) })

/-- `_db_readidx`. With `offset = 0` the record at the current offset is read. -/
def dbReadidx (db : DB) (offset : Int) : M (Int × DB) := do
  let idxoff ← lseek .idx offset (if offset = 0 then .cur else .set)
  if idxoff = -1 then errDump "_db_readidx: lseek error"
  let head ← read .idx (PTR_SZ + IDXLEN_SZ)
  if head.length ≠ PTR_SZ + IDXLEN_SZ then
    if head.length = 0 ∧ offset = 0 then return (-1, { db with idxoff })
    else errDump "_db_readidx: readv error of index record"
  else do
    let ptrval := atol (cstr (head.take PTR_SZ))
    let idxlen := sizeT (atol (cstr (head.drop PTR_SZ)))
    if idxlen < IDXLEN_MIN ∨ idxlen > IDXLEN_MAX then errDump "_db_readidx: invalid length"
    let body ← read .idx idxlen
    if body.length ≠ idxlen then errDump "_db_readidx: read error of index record"
    if body.getLast? ≠ some NEWLINE then errDump "_db_readidx: missing newline"
    parseIdxbuf { db with idxoff, ptrval, idxlen } (cstr body.dropLast)

/-- `_db_readdat`. -/
def dbReaddat (db : DB) : M (List Byte × DB) := do
  let off ← lseek .dat db.datoff .set
  if off = -1 then errDump "_db_readdat: lseek error"
  let datbuf ← read .dat db.datlen
  if datbuf.length ≠ db.datlen then errDump "_db_readdat: read error"
  if datbuf.getLast? ≠ some NEWLINE then errDump "_db_readdat: missing newline"
  return (cstr datbuf.dropLast, { db with datbuf := cstr datbuf.dropLast })

/-- `_db_writedat`. -/
def dbWritedat (db : DB) (data : List Byte) (offset : Int) (whence : Whence) : M DB := do
  if whence = .end then
    let rc ← writewLock .dat 0 0
    if rc < 0 then errDump "_db_writedat: writew_lock error"
  let datoff ← lseek .dat offset whence
  if datoff = -1 then errDump "_db_writedat: lseek error"
  let datlen := data.length + 1
  let n ← write .dat (data ++ [NEWLINE])
  if n ≠ datlen then errDump "_db_writedat: writev error of data record"
  if whence = .end then
    let rc ← unLock .dat 0 0
    if rc < 0 then errDump "_db_writedat: un_lock error"
  return { db with datoff, datlen }

/-- The text that `_db_writeidx` formats into `idxbuf`. -/
def idxText (key : List Byte) (datoff : Int) (datlen : Nat) : List Byte :=
  key ++ [SEP] ++ decimalInt datoff ++ [SEP] ++ decimal datlen ++ [NEWLINE]

/-- The chain pointer and the record length at the front of an index record. -/
def asciiptrlen (ptrval : Int) (len : Nat) : List Byte :=
  padLeft PTR_SZ (decimalInt ptrval) ++ padLeft IDXLEN_SZ (decimal len)

/-- `_db_writeidx`. The text is formatted from `key` before `idxbuf` is overwritten, so the
call from `_db_dodelete`, whose `key` is `idxbuf` itself, formats the old contents. A text that is
too long is formatted whole before it is refused, beyond the end of the buffer of `idxbuf`.
-/
def dbWriteidx (db : DB) (key : List Byte) (offset : Int) (whence : Whence)
    (ptrval : Int)
    : M DB := do
  if ptrval < 0 ∨ ptrval > PTR_MAX then errQuit s!"_db_writeidx: invalid ptr: {ptrval}"
  let idxbuf := idxText key db.datoff db.datlen
  let len := idxbuf.length
  if len < IDXLEN_MIN ∨ len > IDXLEN_MAX then errDump "_db_writeidx: invalid length"
  if whence = .end then
    let rc ← writewLock .idx ((db.nhash + 1) * PTR_SZ + 1) 0
    if rc < 0 then errDump "_db_writeidx: writew_lock error"
  let idxoff ← lseek .idx offset whence
  if idxoff = -1 then errDump "_db_writeidx: lseek error"
  let n ← write .idx ((asciiptrlen ptrval len).take (PTR_SZ + IDXLEN_SZ) ++ idxbuf)
  if n ≠ ((PTR_SZ + IDXLEN_SZ + len : Nat) : Int) then
    errDump "_db_writeidx: writev error of index record"
  if whence = .end then
    let rc ← unLock .idx ((db.nhash + 1) * PTR_SZ + 1) 0
    if rc < 0 then errDump "_db_writeidx: un_lock error"
  return { db with ptrval, idxbuf, idxoff }

/-- `_db_writeptr`. -/
def dbWriteptr (offset : Int) (ptrval : Int) : M Unit := do
  if ptrval < 0 ∨ ptrval > PTR_MAX then errQuit s!"_db_writeptr: invalid ptr: {ptrval}"
  let off ← lseek .idx offset .set
  if off = -1 then errDump "_db_writeptr: lseek error to ptr field"
  let n ← write .idx ((padLeft PTR_SZ (decimalInt ptrval)).take PTR_SZ)
  if n ≠ PTR_SZ then errDump "_db_writeptr: write error of ptr field"

/-- The walk along a hash chain in `_db_find_and_lock`; returns the offset it stopped at. -/
def findLoop (key : List Byte) (start : Int × DB) : M (Int × DB) :=
  Prog.iter start fun (offset, db) =>
    if offset = 0 then return .inr (offset, db)
    else do
      let (nextoffset, db) ← dbReadidx db offset
      if db.idxbuf = key then return .inr (offset, db)
      else return .inl (nextoffset, { db with ptroff := offset })

/-- `_db_find_and_lock`. -/
def dbFindAndLock (db : DB) (key : List Byte) (writelock : Bool) : M (Int × DB) := do
  let chainoff := dbHash db.nhash key * PTR_SZ + db.hashoff
  let db := { db with chainoff := (chainoff : Int), ptroff := (chainoff : Int) }
  if writelock then
    let rc ← writewLock .idx chainoff 1
    if rc < 0 then errDump "_db_find_and_lock: writew_lock error"
  else
    let rc ← readwLock .idx chainoff 1
    if rc < 0 then errDump "_db_find_and_lock: readw_lock error"
  let offset ← dbReadptr db.ptroff
  let (offset, db) ← findLoop key (offset, db)
  return (if offset = 0 then -1 else 0, db)

/-- The walk along the free list in `_db_findfree`; returns the offset it stopped at and
the offset of the pointer that led there.
-/
def freeLoop (keylen datlen : Nat) (start : Int × Int × DB) : M (Int × Int × DB) :=
  Prog.iter start fun (offset, saveoffset, db) =>
    if offset = 0 then return .inr (offset, saveoffset, db)
    else do
      let (nextoffset, db) ← dbReadidx db offset
      if db.idxbuf.length = keylen ∧ db.datlen = datlen then
        return .inr (offset, saveoffset, db)
      else return .inl (nextoffset, offset, db)

/-- `_db_findfree`. The comparisons convert both lengths to `size_t`. -/
def dbFindfree (db : DB) (keylen datlen : Int) : M (Int × DB) := do
  let rc ← writewLock .idx FREE_OFF 1
  if rc < 0 then errDump "_db_findfree: writew_lock error"
  let saveoffset : Int := FREE_OFF
  let offset ← dbReadptr saveoffset
  let (offset, saveoffset, db) ← freeLoop (sizeT keylen) (sizeT datlen) (offset, saveoffset, db)
  let result : Int := if offset = 0 then -1 else 0
  if offset ≠ 0 then dbWriteptr saveoffset db.ptrval
  let rc ← unLock .idx FREE_OFF 1
  if rc < 0 then errDump "_db_findfree: un_lock error"
  return (result, db)

-----------------------------------------------------------------------------------------
-- The operations
-----------------------------------------------------------------------------------------

/-- `db_fetch`. -/
def dbFetch (db : DB) (key : List Byte) : M (Option (List Byte) × DB) := do
  let (rc, db) ← dbFindAndLock db key false
  let (ptr, db) ←
    if rc < 0 then pure (none, { db with cntFetcherr := db.cntFetcherr + 1 })
    else do
      let (ptr, db) ← dbReaddat db
      pure (some ptr, { db with cntFetchok := db.cntFetchok + 1 })
  let rc ← unLock .idx db.chainoff.toNat 1
  if rc < 0 then errDump "db_fetch: un_lock error"
  return (ptr, db)

/-- `_db_dodelete`. -/
def dbDodelete (db : DB) : M DB := do
  let db :=
    { db with
      datbuf := List.replicate (db.datlen - 1) SPACE
      idxbuf := List.replicate db.idxbuf.length SPACE }
  let rc ← writewLock .idx FREE_OFF 1
  if rc < 0 then errDump "_db_dodelete: writew_lock error"
  let db ← dbWritedat db db.datbuf db.datoff .set
  let freeptr ← dbReadptr FREE_OFF
  let saveptr := db.ptrval
  let db ← dbWriteidx db db.idxbuf db.idxoff .set freeptr
  dbWriteptr FREE_OFF db.idxoff
  dbWriteptr db.ptroff saveptr
  let rc ← unLock .idx FREE_OFF 1
  if rc < 0 then errDump "_db_dodelete: un_lock error"
  return db

/-- `db_delete`. -/
def dbDelete (db : DB) (key : List Byte) : M (Int × DB) := do
  let (found, db) ← dbFindAndLock db key true
  let (rc, db) ←
    if found = 0 then do
      let db ← dbDodelete db
      pure ((0 : Int), { db with cntDelok := db.cntDelok + 1 })
    else pure ((-1 : Int), { db with cntDelerr := db.cntDelerr + 1 })
  let unlocked ← unLock .idx db.chainoff.toNat 1
  if unlocked < 0 then errDump "db_delete: un_lock error"
  return (rc, db)

/-- The insertion paths of `db_store`: the key was not found. -/
def dbStoreNew (db : DB) (key data : List Byte) (keylen datlen : Int) : M DB := do
  let ptrval ← dbReadptr db.chainoff
  let (free, db) ← dbFindfree db keylen datlen
  if free < 0 then do
    let db ← dbWritedat db data 0 .end
    let db ← dbWriteidx db key 0 .end ptrval
    dbWriteptr db.chainoff db.idxoff
    return { db with cntStor1 := db.cntStor1 + 1 }
  else do
    let db ← dbWritedat db data db.datoff .set
    let db ← dbWriteidx db key db.idxoff .set ptrval
    dbWriteptr db.chainoff db.idxoff
    return { db with cntStor2 := db.cntStor2 + 1 }

/-- The replacement paths of `db_store`: the key was found. -/
def dbStoreOld (db : DB) (key data : List Byte) (datlen : Int) : M DB := do
  if sizeT datlen ≠ db.datlen then do
    let db ← dbDodelete db
    let ptrval ← dbReadptr db.chainoff
    let db ← dbWritedat db data 0 .end
    let db ← dbWriteidx db key 0 .end ptrval
    dbWriteptr db.chainoff db.idxoff
    return { db with cntStor3 := db.cntStor3 + 1 }
  else do
    let db ← dbWritedat db data db.datoff .set
    return { db with cntStor4 := db.cntStor4 + 1 }

/-- `db_store`, with both lengths in an `int`. -/
def dbStore (db : DB) (key data : List Byte) (flag : Int) : M (Int × DB) := do
  if flag ≠ DB_INSERT ∧ flag ≠ DB_REPLACE ∧ flag ≠ DB_STORE then
    return (-1, { db with errno := EINVAL })
  else do
    let keylen := toInt key.length
    let datlen := toInt (data.length + 1 : Nat)
    if datlen < DATLEN_MIN ∨ datlen > DATLEN_MAX then errDump "db_store: invalid data length"
    let (found, db) ← dbFindAndLock db key true
    let (rc, db) ←
      if found < 0 then
        if flag = DB_REPLACE then
          pure ((-1 : Int), { db with cntStorerr := db.cntStorerr + 1, errno := ENOENT })
        else do
          let db ← dbStoreNew db key data keylen datlen
          pure ((0 : Int), db)
      else if flag = DB_INSERT then
        pure ((1 : Int), { db with cntStorerr := db.cntStorerr + 1 })
      else do
        let db ← dbStoreOld db key data datlen
        pure ((0 : Int), db)
    let unlocked ← unLock .idx db.chainoff.toNat 1
    if unlocked < 0 then errDump "db_store: un_lock error"
    return (rc, db)

/-- `db_rewind`. -/
def dbRewind (db : DB) : M DB := do
  let offset := (db.nhash + 1) * PTR_SZ
  let idxoff ← lseek .idx ((offset + 1 : Nat) : Int) .set
  if idxoff = -1 then errDump "db_rewind: lseek error"
  return { db with idxoff }

/-- The scan of `db_nextrec` for the next key that is not all blank. -/
def scanLoop (start : DB) : M (Option (List Byte) × DB) :=
  Prog.iter start fun db => do
    let (next, db) ← dbReadidx db 0
    if next < 0 then return .inr (none, db)
    else if db.idxbuf.all (· = SPACE) then return .inl db
    else return .inr (some db.idxbuf, db)

/-- `db_nextrec`, which returns the key through its second argument. -/
def dbNextrec (db : DB) : M (Option (List Byte × List Byte) × DB) := do
  let rc ← readwLock .idx FREE_OFF 1
  if rc < 0 then errDump "db_nextrec: readw_lock error"
  let (key, db) ← scanLoop db
  let (found, db) ←
    match key with
    | none => pure (none, db)
    | some key => do
        let (ptr, db) ← dbReaddat db
        pure (some (key, ptr), { db with cntNextrec := db.cntNextrec + 1 })
  let rc ← unLock .idx FREE_OFF 1
  if rc < 0 then errDump "db_nextrec: un_lock error"
  return (found, db)

/-- `_db_alloc`, which clears the structure, followed by the two fields `db_open` sets. -/
def dbAlloc : DB where
  idxfd := -1
  datfd := -1
  idxbuf := []
  datbuf := []
  idxoff := 0
  idxlen := 0
  datoff := 0
  datlen := 0
  ptrval := 0
  ptroff := 0
  chainoff := 0
  hashoff := HASH_OFF
  nhash := NHASH_DEF
  cntDelok := 0
  cntDelerr := 0
  cntFetchok := 0
  cntFetcherr := 0
  cntNextrec := 0
  cntStor1 := 0
  cntStor2 := 0
  cntStor3 := 0
  cntStor4 := 0
  cntStorerr := 0
  errno := 0

/-- `_db_free`: close the descriptors that are open. -/
def dbFree (db : DB) : M Unit := do
  if db.idxfd ≥ 0 then
    let _ ← sysClose .idx
  if db.datfd ≥ 0 then
    let _ ← sysClose .dat

/-- The list of null chain pointers that `db_open` writes to a new index file. -/
def emptyHash : List Byte :=
  (List.replicate (NHASH_DEF + 1) (padLeft PTR_SZ (decimalInt 0))).flatten ++ [NEWLINE]

/-- `db_open`, for reading and writing. -/
def dbOpen (oflag : Oflag) : M (Option DB) := do
  let idxfd ← sysOpen .idx oflag
  let datfd ← sysOpen .dat oflag
  let db := { dbAlloc with idxfd, datfd }
  if idxfd < 0 ∨ datfd < 0 then do
    dbFree db
    return none
  else do
    if oflag.creat ∧ oflag.trunc then
      let rc ← writewLock .idx 0 0
      if rc < 0 then errDump "db_open: writew_lock error"
      let size ← fstat .idx
      if size = 0 then
        let n ← write .idx emptyHash
        if n ≠ emptyHash.length then errDump "db_open: index file init write error"
      let rc ← unLock .idx 0 0
      if rc < 0 then errDump "db_open: un_lock error"
    let db ← dbRewind db
    return some db

/-- `db_close`. -/
def dbClose (db : DB) : M Unit := dbFree db

/-- A C string: it holds no null byte. -/
structure CString where
  bytes : List Byte
  noNull : 0 ∉ bytes
deriving DecidableEq

/-- A call of the library. The flags of `db_open` are `O_RDWR` with or without `O_CREAT` and
`O_TRUNC`.
-/
inductive Op
  | open (creat trunc : Bool)
  | close
  | fetch (key : CString)
  | store (key data : CString) (flag : Int)
  | delete (key : CString)
  | rewind
  | nextrec
deriving DecidableEq

/-- What a call returns; `opened` tells whether the handle is not null. -/
inductive Res
  | opened (ok : Bool)
  | unit
  | data (ptr : Option (List Byte))
  | code (rc : Int)
  | record (found : Option (List Byte × List Byte))
deriving Repr, DecidableEq

/-- The program of a call, on the handle of the calling process. A null handle is
dereferenced at once.
-/
def opCode : Op → Option DB → M (Res × Option DB)
  | .open creat trunc, _ => do
      let db ← dbOpen { creat, trunc }
      return (.opened db.isSome, db)
  | _, none => Prog.abort (S := Sys) .nullHandle
  | .close, some db => do
      dbClose db
      return (.unit, none)
  | .fetch key, some db => do
      let (ptr, db) ← dbFetch db key.bytes
      return (.data ptr, some db)
  | .store key data flag, some db => do
      let (rc, db) ← dbStore db key.bytes data.bytes flag
      return (.code rc, some db)
  | .delete key, some db => do
      let (rc, db) ← dbDelete db key.bytes
      return (.code rc, some db)
  | .rewind, some db => do
      let db ← dbRewind db
      return (.unit, some db)
  | .nextrec, some db => do
      let (found, db) ← dbNextrec db
      return (.record found, some db)

end Minions.Db
