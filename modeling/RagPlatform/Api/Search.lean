import RagPlatform.Api.Deps

/-! The retrieval endpoint. -/

namespace RagPlatform

open Lib

structure SearchRequest where
  query : Str
  mode : SearchMode := .hybrid
  topN : Int := 8

def SearchRequest.valid (body : SearchRequest) : Bool :=
  1 ≤ body.query.length && body.query.length ≤ 2000 && 1 ≤ body.topN && body.topN ≤ 50

structure SearchResultOut where
  chunkId : Nat
  documentId : Uuid
  filename : Str
  chunkIndex : Nat
  content : Str
  location : Option Str
  scores : Dict Str Rat
  deriving DecidableEq

def searchResultOut (r : RetrievedChunk) : SearchResultOut where
  chunkId := r.chunkId
  documentId := r.documentId
  filename := r.filename
  chunkIndex := r.chunkIndex
  content := r.content
  location := formatLocation r.metadata
  scores := r.scores

def search (settings : Settings) (tenantId : Uuid) (body : SearchRequest) :
    Io (List SearchResultOut) := do
  validate body.valid
  let results ← (getRetrievalService settings).search tenantId body.query body.mode (some body.topN)
  return results.map searchResultOut

end RagPlatform
