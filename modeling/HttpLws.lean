import HttpLws.Payload
import HttpLws.Body
import HttpLws.HeaderLines
import HttpLws.Framing
import HttpLws.ReceivedBody
import HttpLws.UrlParameters
import HttpLws.UrlParam
import HttpLws.CustomHeaders
import HttpLws.KnownHeaders
import HttpLws.Filter
import HttpLws.ReturnValues
import HttpLws.Pausing
import HttpLws.Start
import HttpLws.FailedReads
import HttpLws.ResponseBuffer
import HttpLws.Readable
import HttpLws.Restarts
import HttpLws.Handlers
import HttpLws.ListedArguments
import HttpLws.Splitting
import HttpLws.Service
import HttpLws.Sessions
import HttpLws.Journal
