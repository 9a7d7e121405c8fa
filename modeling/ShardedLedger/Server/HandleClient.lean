import ShardedLedger.Channel.Record
import ShardedLedger.Server.Retrieve
set_option autoImplicit false

/-!
# Server: the request loop of a shard (`handle_client`)

After the key exchange with the router a shard answers one request after the
other: `RETRIEVE` with the text of its chain, everything else by storing it.  It
leaves the loop, and closes the connection, at the first record that does not
open or is empty.  Here every reply can be sent; `ShardMain` has the reply that ends
the process.
-/

namespace ShardedLedger.Server

open CString Sha256 Channel

/-- What the handling of one request yields: the text that is sent back, the
chain afterwards, and the strings that were hashed. -/
structure Handled where
  response : Bytes
  blocks : List Block
  hashed : List Bytes

/-- The process of a shard in the request loop of `handle_client`. -/
structure Shard where
  sessionKey : SessionKey
  /-- Whether the loop still runs. -/
  serving : Bool
  blockchain : List Block
  /-- The segments sent to the router and not yet received. -/
  outgoing : List Bytes
  /-- The nonces the shard will draw. -/
  nonces : Stream' Nonce
  /-- What the allocation of a block returns, request by request. -/
  mallocs : Stream' (Option RawBlock)
  /-- The strings hashed so far. -/
  hashed : List Bytes

/-- A shard with an empty chain, whose key exchange with the router is done. -/
def Shard.start (sessionKey : SessionKey) (nonces : Stream' Nonce)
    (mallocs : Stream' (Option RawBlock)) : Shard where
  sessionKey := sessionKey
  serving := true
  blockchain := []
  outgoing := []
  nonces := nonces
  mallocs := mallocs
  hashed := []

variable (sha256 : Bytes → Digest) (aes : AesGcm)

/-- The dispatch of `handle_client` on a decrypted request, which is terminated
in place first. -/
def handleRequest (malloc : Option RawBlock) (decryptedData : Bytes) (blockchain : List Block) :
    Handled :=
  let request := decryptedData ++ [0]
  if strcmpEq request (ascii "RETRIEVE") then
    let retrieved := retrieveData sha256 blockchain
    ⟨retrieved.response, retrieved.blocks, retrieved.hashed⟩
  else
    let stored := storeData sha256 malloc request blockchain
    ⟨ascii "DATA_STORED", stored.blocks, stored.hashed⟩

/-- One iteration of the loop, on the result of its `recv`. -/
def Shard.serve (shard : Shard) (received : Option Bytes) : Shard :=
  if !shard.serving then shard
  else
    match receiveEncyptedData aes shard.sessionKey received with
    | none => { shard with serving := false }
    | some [] => { shard with serving := false }
    | some decryptedData =>
        let handled := handleRequest sha256 shard.mallocs.head decryptedData shard.blockchain
        { shard with
          blockchain := handled.blocks
          outgoing := shard.outgoing ++
            [sendEncyptedData aes shard.sessionKey shard.nonces.head handled.response]
          nonces := shard.nonces.tail
          mallocs := shard.mallocs.tail
          hashed := shard.hashed ++ handled.hashed }

/-! ## One request -/

/-- A request that is a C string is a retrieval exactly when it is the word. -/
theorem handleRequest_retrieve (malloc : Option RawBlock) (blockchain : List Block) :
    handleRequest sha256 malloc (ascii "RETRIEVE") blockchain =
      ⟨(retrieveData sha256 blockchain).response, (retrieveData sha256 blockchain).blocks,
        (retrieveData sha256 blockchain).hashed⟩ := by
  have hword : strcmpEq (ascii "RETRIEVE" ++ [0]) (ascii "RETRIEVE") = true := by decide
  simp only [handleRequest, hword, if_true]

theorem handleRequest_store (malloc : Option RawBlock) {request : Bytes}
    (h : cstr request ≠ ascii "RETRIEVE") (blockchain : List Block) :
    handleRequest sha256 malloc request blockchain =
      ⟨ascii "DATA_STORED", (storeData sha256 malloc (request ++ [0]) blockchain).blocks,
        (storeData sha256 malloc (request ++ [0]) blockchain).hashed⟩ := by
  have hword : strcmpEq (request ++ [0]) (ascii "RETRIEVE") = false :=
    strcmpEq_append_nul_of_ne rfl h
  simp only [handleRequest, hword, Bool.false_eq_true, if_false]

/-- The terminator the shard writes is not part of what it stores. -/
theorem storeData_terminated (raw : RawBlock) (payload : Bytes) (chain : List Block) :
    (storeData sha256 (some raw) (payload ++ [0]) chain).blocks =
      (storeData sha256 (some zeroBlock) payload chain).blocks := by
  have hnew : newBlock sha256 (payload ++ [0]) chain = newBlock sha256 payload chain := by
    have hstored : storedData (payload ++ [0]) = storedData payload := by
      rw [storedData, storedData, cstr_append_singleton_nul]
    have hdata : CharBuf.ofStr 255 (payload ++ [0]) = CharBuf.ofStr 255 payload :=
      CharBuf.ofStr_congr (by rw [cstr_append_singleton_nul])
    rw [newBlock, newBlock, hstored, hdata]
  rw [storeData_some, storeData_some, hnew]

/-! ## One iteration -/

/-- A serving shard answers whatever opens to a request. -/
theorem Shard.serve_of_opened {shard : Shard} (hserving : shard.serving = true)
    {received : Option Bytes} {request : Bytes}
    (hopened : receiveEncyptedData aes shard.sessionKey received = some request)
    (hrequest : request ≠ []) :
    shard.serve sha256 aes received =
      { shard with
        blockchain := (handleRequest sha256 shard.mallocs.head request shard.blockchain).blocks
        outgoing := shard.outgoing ++ [sendEncyptedData aes shard.sessionKey shard.nonces.head
          (handleRequest sha256 shard.mallocs.head request shard.blockchain).response]
        nonces := shard.nonces.tail
        mallocs := shard.mallocs.tail
        hashed := shard.hashed ++
          (handleRequest sha256 shard.mallocs.head request shard.blockchain).hashed } := by
  obtain ⟨c, rest, rfl⟩ := List.exists_cons_of_ne_nil hrequest
  unfold serve
  rw [hserving, hopened]
  rfl

/-- A serving shard answers a record of its session that carries a request. -/
theorem Shard.serve_send (shard : Shard) (hserving : shard.serving = true) (nonce : Nonce)
    {request : Bytes} (hrequest : request ≠ []) :
    shard.serve sha256 aes (some (sendEncyptedData aes shard.sessionKey nonce request)) =
      { shard with
        blockchain := (handleRequest sha256 shard.mallocs.head request shard.blockchain).blocks
        outgoing := shard.outgoing ++ [sendEncyptedData aes shard.sessionKey shard.nonces.head
          (handleRequest sha256 shard.mallocs.head request shard.blockchain).response]
        nonces := shard.nonces.tail
        mallocs := shard.mallocs.tail
        hashed := shard.hashed ++
          (handleRequest sha256 shard.mallocs.head request shard.blockchain).hashed } := by
  have hopened := receive_send aes shard.sessionKey nonce request
  exact serve_of_opened sha256 aes hserving hopened hrequest

end ShardedLedger.Server
