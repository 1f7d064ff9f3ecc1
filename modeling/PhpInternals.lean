import PhpInternals.Ext.Calendar.Sdn
import PhpInternals.Ext.Json.PartialOutput
import PhpInternals.Ext.Session.BinToReadable
import PhpInternals.Ext.Session.Decode
import PhpInternals.Ext.Spl.SplHeap
import PhpInternals.Ext.Standard.BaseConvert
import PhpInternals.Ext.Standard.Cslashes
import PhpInternals.Ext.Standard.Explode
import PhpInternals.Ext.Standard.Levenshtein
import PhpInternals.Ext.Standard.RandRange
import PhpInternals.Ext.Standard.Uuencode
import PhpInternals.Ext.Standard.VarUnserializer
import PhpInternals.Main.Fastcgi.Framing
import PhpInternals.Main.Streams.Calls
import PhpInternals.Optimizer.Inference.BooleanRange
import PhpInternals.Optimizer.NopRemoval.Execution
import PhpInternals.Optimizer.Scdf.FixedPoint
import PhpInternals.Sapi.Fpm.Bound
import PhpInternals.Zend.ZendAlloc.PageRuns
import PhpInternals.Zend.ZendGc.BufferRuns
import PhpInternals.Zend.ZendGc.Collect
import PhpInternals.Zend.ZendGc.Garbage
import PhpInternals.Zend.ZendGenerators.YieldFrom
import PhpInternals.Zend.ZendHash.ChainInvariant
import PhpInternals.Zend.ZendHash.Compare
import PhpInternals.Zend.ZendHash.IteratorRegistry
import PhpInternals.Zend.ZendHash.NextFree
import PhpInternals.Zend.ZendHash.PropTable
import PhpInternals.Zend.ZendObjectsApi.Handles
import PhpInternals.Zend.ZendOperators.Increment
import PhpInternals.Zend.ZendOperators.SmartStrcmp
